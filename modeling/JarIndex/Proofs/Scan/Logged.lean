import JarIndex.Proofs.Scan.Outcome

/-!
# What a scan logs

A scan that ends logs the diagnostics it gives, in their order, and nothing else but a
last line: that there is nothing at the path, or how many class entries an archive has
and how many of them decode.
-/

set_option autoImplicit false

namespace JarIndex

def Diagnostic.event (d : Diagnostic) : Event := ⟨.warn, .archive, d.message⟩

def warnings (events : List Event) : List String :=
  (events.filter (·.level = .warn)).map Event.message

theorem warnings_append (es es' : List Event) :
    warnings (es ++ es') = warnings es ++ warnings es' := by
  simp [warnings]

theorem warnings_events (ds : List Diagnostic) :
    warnings (ds.map Diagnostic.event) = ds.map Diagnostic.message := by
  induction ds with
  | nil => rfl
  | cons d ds ih =>
    rw [List.map_cons, List.map_cons, ← ih]
    rfl

namespace Scan

open Archive (Member)
open ClassFile (Header)

def missingEvent (path : String) : Event := ⟨.debug, .archive, "skipping missing archive " ++ path⟩

def scannedEvent (path : String) (classEntries decoded : Nat) : Event :=
  ⟨.debug, .archive, "scanned " ++ path ++ ": " ++ toString classEntries ++ " class entries, " ++
    toString decoded ++ " decoded"⟩

/-- What the log tells of a scan: that there is nothing at its path, the one diagnostic of what is
no archive, or each diagnostic of an archive and then its numbers. -/
inductive Logs (path : String) (scan : Scan) : List Event → Prop where
  | missing (status : scan.status = .missing) (silent : scan.diagnostics = []) :
      Logs path scan [missingEvent path]
  | failed {d : Diagnostic} (status : scan.status = .failed) (only : scan.diagnostics = [d]) :
      Logs path scan [d.event]
  | scanned (status : scan.status = .scanned) :
      Logs path scan (scan.diagnostics.map Diagnostic.event ++
        [scannedEvent path scan.classEntries scan.headers.length])

variable {t : FileTree} {order : EntryOrder} {path : String} {bs : Bytes} {ms : List Member}
  {scan : Scan} {events : List Event}

theorem Logs.warnings (h : Logs path scan events) :
    warnings events = scan.diagnostics.map Diagnostic.message := by
  cases h with
  | missing _ silent =>
    rw [silent]
    rfl
  | failed _ only =>
    rw [only]
    rfl
  | scanned =>
    rw [warnings_append, warnings_events]
    exact List.append_nil _

theorem events_visitAll {hs : List Header} {ds : List Diagnostic}
    (h : (visitAll path bs ms).value? = some (hs, ds)) :
    (visitAll path bs ms).events = ds.map Diagnostic.event := by
  induction ms generalizing hs ds with
  | nil =>
    cases h
    rfl
  | cons m ms ih =>
    rw [visitAll] at h ⊢
    cases hv : visit path bs m with
    | abort =>
      rw [hv] at h
      cases h
    | header x =>
      simp only [hv, Run.value?_bind] at h ⊢
      obtain ⟨⟨hs', ds'⟩, hr, he⟩ := Option.bind_eq_some_iff.mp h
      cases he
      rw [Run.events_bind hr, ih hr]
      exact List.append_nil _
    | diagnostic d =>
      simp only [hv, warn, Run.value?_bind, Run.value?_log, Option.bind_some] at h ⊢
      obtain ⟨⟨hs', ds'⟩, hr, he⟩ := Option.bind_eq_some_iff.mp h
      cases he
      rw [Run.events_bind (Run.value?_log _), Run.events_bind hr, ih hr]
      exact congrArg (d.event :: ·) (List.append_nil _)

theorem ofMembers_logs (h : (ofMembers path order bs ms).value? = some scan) :
    Logs path scan (ofMembers path order bs ms).events := by
  rcases hl : listed path bs 0 ms with ⟨entries, lost⟩
  have hw : (lost.forM warn).value? = some () := Run.value?_forM (fun _ => rfl) lost
  have he : (lost.forM warn).events = lost.map Diagnostic.event :=
    Run.events_forM_log Diagnostic.event lost
  unfold ofMembers at h ⊢
  simp only [hl, Run.value?_bind, hw, Option.bind_some] at h ⊢
  obtain ⟨⟨hs, ds⟩, hr, h⟩ := Option.bind_eq_some_iff.mp h
  cases h
  rw [Run.events_bind hw, he, Run.events_bind hr, events_visitAll hr, ← List.append_assoc,
    ← List.map_append]
  exact .scanned rfl

theorem run_logs (h : (run t order path).value? = some scan) :
    Logs path scan (run t order path).events := by
  unfold run at h ⊢
  split at h
  · rename_i he
    rw [if_pos he]
    cases h
    exact .missing rfl rfl
  · rename_i he
    rw [if_neg he]
    split at h
    · cases h
      exact .failed rfl rfl
    · split at h
      · cases h
        exact .failed rfl rfl
      · exact ofMembers_logs h
    · cases h
      exact .failed rfl rfl

end Scan

end JarIndex
