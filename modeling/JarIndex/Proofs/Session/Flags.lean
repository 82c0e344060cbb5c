import JarIndex.Proofs.CommandLine.Raised
import JarIndex.Proofs.Extraction.Strict
import JarIndex.Session

/-!
# What the flags of an extraction change

A command line for an extraction may ask for parallel scans, for a verbose log and
for strictness. Parallel and verbose runs print, write and report the same. A strict
run prints and writes the same too, and fails where the other ended well but left
something unread.
-/

set_option autoImplicit false

namespace JarIndex.Session

open CommandLine (Command ExtractOptions Invocation)
open Extraction (FirstOf ofScans requested scans)

def Outcome.quiet (o : Outcome) : Outcome := { o with log := [] }

theorem Outcome.eq_of_quiet {a b : Outcome} (h : a.quiet = b.quiet) :
    a.code = b.code ∧ a.output = b.output ∧ a.report = b.report ∧ a.tree = b.tree := by
  cases a
  cases b
  simpa [quiet] using h

def ended (t : FileTree) : Option Effect → Outcome
  | none => ⟨101, "", "", [], t⟩
  | some e =>
    match e.failure with
    | none => ⟨0, e.output, "", [], e.tree⟩
    | some failure => ⟨1, e.output, failure.report, [], e.tree⟩

def unflagged (o : ExtractOptions) : ExtractOptions := { o with parallel := false, strict := false }

def chosenOrder (env : Environment) (o : ExtractOptions) : Except SettingsError EntryOrder :=
  match o.order, env.lookup Settings.orderVariable with
  | some order, _ => .ok order
  | none, some raw => Settings.orderOfText raw
  | none, none => .ok .canonical

structure Extracts (t : FileTree) (env : Environment) (o : ExtractOptions) (settings : Settings)
    (paths : List String) (e : Extraction) : Prop where
  resolved : Settings.resolve env o.order o.parallel = .ok settings
  listed : PathList.resolve t o.jars o.jarsFile o.dir = .ok paths
  ends : (Extraction.run t settings paths).value? = some e

variable {t : FileTree} {env : Environment} {o o' : ExtractOptions} {v v' : Bool}
  {args args' : List String}

theorem quiet_ofRun (f : LogFilter) (r : Run Effect) : (ofRun t f r).quiet = ended t r.value? := by
  unfold ofRun ended Outcome.quiet
  cases r.value? with
  | none => rfl
  | some e =>
    dsimp only
    cases e.failure <;> rfl

theorem quiet_run (t : FileTree) (env : Environment)
    (h : CommandLine.parse args = .ok ⟨.extract o, v⟩) :
    (run t env args).quiet = ended t (extract t env o).value? := by
  unfold run
  rw [h]
  exact quiet_ofRun _ _

theorem resolve_settings (env : Environment) (o : ExtractOptions) :
    ∃ parallel, Settings.resolve env o.order o.parallel =
      (chosenOrder env o).map fun order => ⟨order, parallel⟩ := by
  refine ⟨o.parallel || ((env.lookup Settings.parallelVariable).map Settings.isYes).getD false, ?_⟩
  unfold Settings.resolve chosenOrder
  cases o.order with
  | some order => rfl
  | none =>
    cases env.lookup Settings.orderVariable with
    | none => rfl
    | some raw =>
      dsimp only
      cases Settings.orderOfText raw <;> rfl

/-- What a run of an extraction leaves behind. The flag for parallel scans does not occur. -/
def effect? (t : FileTree) (env : Environment) (o : ExtractOptions) : Option Effect :=
  match chosenOrder env o with
  | .error e => some (.failed t (.settings e))
  | .ok order =>
    match PathList.resolve t o.jars o.jarsFile o.dir with
    | .error f => some (.failed t f)
    | .ok paths => (scans t order paths).map fun ss =>
      conclude o (ofScans paths ss) (writeReport t o (ofScans paths ss))

theorem value?_extract (t : FileTree) (env : Environment) (o : ExtractOptions) :
    (extract t env o).value? = effect? t env o := by
  obtain ⟨parallel, hs⟩ := resolve_settings env o
  unfold extract effect?
  rw [hs]
  cases chosenOrder env o with
  | error e => rfl
  | ok order =>
    cases PathList.resolve t o.jars o.jarsFile o.dir with
    | error f =>
      simp only [Except.map, Except.mapError]
      rfl
    | ok paths =>
      simp only [Except.map, Except.mapError]
      rw [Run.value?_bind, Extraction.value?_run]
      cases scans t order paths <;> rfl

theorem conclude_strict (hs : o.strict = true) (e : Extraction) (effect : Effect) :
    conclude o e effect =
      if effect.failure = none ∧ e.diagnostics ≠ [] then
        { effect with failure := some (.incomplete e.diagnostics.length) }
      else effect := by
  unfold conclude
  cases hf : effect.failure with
  | some f => simp
  | none => cases hd : e.diagnostics <;> simp [hs]

theorem conclude_lenient (hs : o.strict = false) (e : Extraction) (effect : Effect) :
    conclude o e effect = effect := by
  unfold conclude
  cases hf : effect.failure with
  | some f => rfl
  | none => simp [hs]

theorem report_incomplete (n : Nat) : (Failure.incomplete n).report =
    "Error: " ++ toString n ++ " archive(s) or entries could not be read\n" := by
  simp [Failure.report, Failure.messages, Failure.causeLines, String.join, String.append_assoc]

/-- A run without strictness and the one with the same options and any flags both fail before they
scan, both are aborted, or make the same extraction and differ in how they conclude it. -/
theorem effect?_cases (t : FileTree) (env : Environment) (hs : o.strict = false)
    (same : unflagged o = unflagged o') :
    (∃ f, effect? t env o = some (.failed t f) ∧ effect? t env o' = some (.failed t f)) ∨
    (effect? t env o = none ∧ effect? t env o' = none) ∨
    ∃ settings paths e, Extracts t env o settings paths e ∧
      effect? t env o = some (writeReport t o e) ∧
      effect? t env o' = some (conclude o' e (writeReport t o e)) := by
  obtain ⟨parallel, hr⟩ := resolve_settings env o
  have horder : chosenOrder env o' = chosenOrder env o := (congrArg (chosenOrder env) same).symm
  have hpaths : PathList.resolve t o'.jars o'.jarsFile o'.dir =
      PathList.resolve t o.jars o.jarsFile o.dir :=
    (congrArg (fun u => PathList.resolve t u.jars u.jarsFile u.dir) same).symm
  have hreport : writeReport t o' = writeReport t o := (congrArg (writeReport t) same).symm
  unfold effect?
  rw [horder, hpaths, hreport]
  cases hc : chosenOrder env o with
  | error e => exact .inl ⟨_, rfl, rfl⟩
  | ok order =>
    cases hp : PathList.resolve t o.jars o.jarsFile o.dir with
    | error f => exact .inl ⟨_, rfl, rfl⟩
    | ok paths =>
      dsimp only
      cases hss : scans t order paths with
      | none => exact .inr (.inl ⟨rfl, rfl⟩)
      | some ss =>
        have extracts : Extracts t env o ⟨order, parallel⟩ paths (ofScans paths ss) := by
          refine ⟨by rw [hr, hc]; rfl, hp, ?_⟩
          rw [Extraction.value?_run, hss]
          rfl
        refine .inr (.inr ⟨_, _, _, extracts, ?_, rfl⟩)
        simp only [Option.map_some, conclude_lenient hs]

/-- That one outcome is the other made strict: it prints and writes the same, it is the same if the
other fails, and else it fails exactly if there are diagnostics, of which an extraction made
strict gives the first. -/
structure Stricter (t : FileTree) (env : Environment) (o : ExtractOptions)
    (lenient strict : Outcome) : Prop where
  output : strict.output = lenient.output
  tree : strict.tree = lenient.tree
  failed : lenient.code ≠ 0 → strict.quiet = lenient.quiet
  ended : lenient.code = 0 → ∃ settings paths e, Extracts t env o settings paths e ∧
    (e.diagnostics = [] → strict.quiet = lenient.quiet) ∧
    (e.diagnostics ≠ [] → strict.code = 1 ∧ strict.report = "Error: " ++
      toString e.diagnostics.length ++ " archive(s) or entries could not be read\n") ∧
    ((∃ d, e.strict = .error d) ↔ e.diagnostics ≠ []) ∧
    ∀ d, e.strict = .error d → FirstOf t settings.order (requested paths) d

theorem stricter_self {out out' : Outcome} (hc : out.code ≠ 0) (h : out'.quiet = out.quiet) :
    Stricter t env o out out' where
  output := (Outcome.eq_of_quiet h).2.1
  tree := (Outcome.eq_of_quiet h).2.2.2
  failed _ := h
  ended hz := absurd hz hc

theorem stricter_extracts {settings : Settings} {paths : List String} {e : Extraction}
    {effect : Effect} {out out' : Outcome} (hs : o'.strict = true)
    (hx : Extracts t env o settings paths e) (h : out.quiet = ended t (some effect))
    (h' : out'.quiet = ended t (some (conclude o' e effect))) : Stricter t env o out out' := by
  rw [conclude_strict hs] at h'
  cases hf : effect.failure with
  | some f =>
    rw [if_neg (by simp [hf]), ← h] at h'
    refine stricter_self ?_ h'
    have hc := congrArg Outcome.code h
    simp only [ended, hf] at hc
    show out.quiet.code ≠ 0
    omega
  | none =>
    have strict := Extraction.strict_fails_iff (e := e)
    have first := fun d hd => Extraction.first_of_strict (d := d) hx.ends hd
    by_cases hd : e.diagnostics = []
    · rw [if_neg (by simp [hd]), ← h] at h'
      obtain ⟨-, output, -, tree⟩ := Outcome.eq_of_quiet h'
      refine ⟨output, tree, fun _ => h', fun _ => ?_⟩
      exact ⟨settings, paths, e, hx, fun _ => h', fun hn => absurd hd hn, strict, first⟩
    · rw [if_pos ⟨hf, hd⟩] at h'
      simp only [ended, hf] at h h'
      have hcode : out.code = 0 := congrArg Outcome.code h
      have hcode' : out'.code = 1 := congrArg Outcome.code h'
      have hreport := (congrArg Outcome.report h').trans (report_incomplete _)
      refine ⟨?_, ?_, fun hn => absurd hcode hn, fun _ => ?_⟩
      · exact (congrArg Outcome.output h').trans (congrArg Outcome.output h).symm
      · exact (congrArg Outcome.tree h').trans (congrArg Outcome.tree h).symm
      · exact ⟨settings, paths, e, hx, fun hn => absurd hn hd, fun _ => ⟨hcode', hreport⟩, strict,
          first⟩

theorem run_unflagged (t : FileTree) (env : Environment)
    (h : CommandLine.parse args = .ok ⟨.extract o, v⟩)
    (h' : CommandLine.parse args' = .ok ⟨.extract o', v'⟩) (same : unflagged o = unflagged o') :
    (o.strict = o'.strict → (run t env args').quiet = (run t env args).quiet) ∧
    (o.strict = false → o'.strict = true →
      Stricter t env o (run t env args) (run t env args')) := by
  have hq := quiet_run t env h
  have hq' := quiet_run t env h'
  rw [value?_extract] at hq hq'
  constructor
  · intro hstrict
    have hu : effect? t env o' = effect? t env o := by
      have ho : { o with parallel := false } = { o' with parallel := false } := by
        cases o
        cases o'
        simp_all [unflagged]
      exact (congrArg (effect? t env) ho).symm
    rw [hq, hq', hu]
  · intro hl hs
    rcases effect?_cases t env hl same with ⟨f, he, he'⟩ | ⟨he, he'⟩ |
      ⟨_, _, _, extracts, he, he'⟩
    · rw [he] at hq
      have hcode : (run t env args).code = 1 := congrArg Outcome.code hq
      rw [he', ← hq] at hq'
      exact stricter_self (by omega) hq'
    · rw [he] at hq
      have hcode : (run t env args).code = 101 := congrArg Outcome.code hq
      rw [he', ← hq] at hq'
      exact stricter_self (by omega) hq'
    · rw [he] at hq
      rw [he'] at hq'
      exact stricter_extracts hs extracts hq hq'

/-- Two command lines that ask for the same extraction but for flags differ in what they log, and in
nothing else, if both or none is strict, whatever comes of them; if only one is strict, its outcome
is that of the other made strict. So it is with a flag that is added to a command line. -/
theorem flags_immaterial (t : FileTree) (env : Environment) :
    (∀ args args' o o' v v', CommandLine.parse args = .ok ⟨.extract o, v⟩ →
      CommandLine.parse args' = .ok ⟨.extract o', v'⟩ → unflagged o = unflagged o' →
      (o.strict = o'.strict → (run t env args').quiet = (run t env args).quiet) ∧
      (o.strict = false → o'.strict = true →
        Stricter t env o (run t env args) (run t env args'))) ∧
    ∀ program words o v,
      CommandLine.parse (program :: "extract" :: words) = .ok ⟨.extract o, v⟩ →
      (o.parallel = false → (run t env (program :: "extract" :: "--parallel" :: words)).quiet =
        (run t env (program :: "extract" :: words)).quiet) ∧
      (v = false → (run t env (program :: "extract" :: "--verbose" :: words)).quiet =
        (run t env (program :: "extract" :: words)).quiet) ∧
      (o.strict = false → Stricter t env o (run t env (program :: "extract" :: words))
        (run t env (program :: "extract" :: "--strict" :: words))) := by
  refine ⟨fun _ _ _ _ _ _ h h' same => run_unflagged t env h h' same, ?_⟩
  intro program words o v h
  refine ⟨fun hf => ?_, fun hf => ?_, fun hf => ?_⟩
  · obtain ⟨g, rfl, rfl, raised⟩ := CommandLine.parse_flagWord (f := .parallel) (by decide) h
    exact (run_unflagged t env h (raised hf) rfl).1 rfl
  · obtain ⟨g, rfl, rfl, raised⟩ := CommandLine.parse_flagWord (f := .verbose) (by decide) h
    exact (run_unflagged t env h (raised hf) rfl).1 rfl
  · obtain ⟨g, rfl, rfl, raised⟩ := CommandLine.parse_flagWord (f := .strict) (by decide) h
    exact (run_unflagged t env h (raised hf) rfl).2 hf rfl

/-- An extraction with one class entry that does not decode, asked for without flags and with all
of them. -/
def plainWords : List String := ["jar-index", "/b.jar", "--order", "native", "-o", "out/b.json"]

def flaggedWords : List String :=
  ["jar-index", "extract", "--strict", "-v", "/b.jar", "--order=native", "--output", "out/b.json",
    "--parallel"]

def plainOptions : ExtractOptions :=
  ⟨["/b.jar"], none, none, .json, some "out/b.json", some .native, false, false⟩

theorem flags_immaterial_sample :
    Stricter Scan.writtenTree [] plainOptions (run Scan.writtenTree [] plainWords)
      (run Scan.writtenTree [] flaggedWords) ∧
    (run Scan.writtenTree [] plainWords).code = 0 ∧
    (run Scan.writtenTree [] flaggedWords).report =
      "Error: 1 archive(s) or entries could not be read\n" ∧
    (run Scan.writtenTree [] ["jar-index", "extract", "--parallel", "/b.jar"]).quiet =
      (run Scan.writtenTree [] ["jar-index", "extract", "/b.jar"]).quiet := by
  have hp : CommandLine.parse plainWords = .ok ⟨.extract plainOptions, false⟩ := by decide +kernel
  have hf : CommandLine.parse flaggedWords =
      .ok ⟨.extract { plainOptions with parallel := true, strict := true }, true⟩ := by
    decide +kernel
  have stricter := ((flags_immaterial Scan.writtenTree []).1 plainWords flaggedWords plainOptions
    _ _ _ hp hf rfl).2 rfl rfl
  have hb : CommandLine.parse ["jar-index", "extract", "/b.jar"] =
      .ok ⟨.extract ⟨["/b.jar"], none, none, .json, none, none, false, false⟩, false⟩ := by
    decide +kernel
  have added := (flags_immaterial Scan.writtenTree []).2 "jar-index" ["/b.jar"] _ _ hb
  exact ⟨stricter, by decide +kernel, by decide +kernel, added.1 rfl⟩

end JarIndex.Session
