import JarIndex.Proofs.Scan.Accounting
import JarIndex.Proofs.Scan.Ending
import JarIndex.Proofs.Scan.Presented
import Mathlib.Data.List.Forall2

/-!
# What the diagnostics of a scan are about

Each diagnostic of an archive blames one of its members: one without a local header
by its number, or a class entry by its name. The other members are resources, and
what is wrong with them shows nowhere.
-/

set_option autoImplicit false

namespace JarIndex.Scan

open Archive (Member Fault Readable)

/-- That a diagnostic is about the member with a number. If its local header cannot be read, the
diagnostic calls it by the number; else it is named like a class file, and the diagnostic calls it
by its name and says why it gives no header. -/
inductive Blames (path : String) (bs : Bytes) (i : Nat) (m : Member) : Diagnostic → Prop where
  | lost {f : Fault} (unlocated : m.dataOffset bs = .error f) :
      Blames path bs i m (.unreadEntry path ("#" ++ toString i) f)
  | entry {d : Diagnostic} (visited : IsVisited bs m) (named : d.entry = some m.name)
      (given : Gives path bs m (.diagnostic d)) : Blames path bs i m d

variable {t t' : FileTree} {order : EntryOrder} {path : String} {bs bs' : Bytes}
  {ms ms' : List Member} {m m' : Member} {scan : Scan} {d : Diagnostic}

theorem Ledger.blames (l : Ledger path order bs ms) (h : d ∈ l.diagnostics) :
    ∃ i m, ms[i]? = some m ∧ Blames path bs i m d := by
  rcases List.mem_append.mp h with h | h
  · obtain ⟨⟨i, f⟩, hl, rfl⟩ := List.mem_map.mp h
    obtain ⟨m, hm, hf⟩ := (l.mem_lost i f).mp hl
    exact ⟨i, m, hm, .lost hf⟩
  · obtain ⟨⟨m, i⟩, he, hd⟩ := List.mem_filterMap.mp h
    obtain ⟨hm, located, named⟩ := (l.mem_visits m i).mp he
    have hg := visit_gives_diagnostic hd
    exact ⟨i, m, hm, .entry ⟨located, named⟩ hg.names.2.2 hg⟩

/-- That two members are the same to a scan: they are both resources, or lost for the same reason,
or what is presented of them is the same. -/
inductive Alike (bs bs' : Bytes) : Member → Member → Prop where
  | resource {m m' : Member} (located : ∃ start, m.dataOffset bs = .ok start)
      (located' : ∃ start, m'.dataOffset bs' = .ok start)
      (named : ¬ classSuffix.toList <:+ m.name.toList)
      (named' : ¬ classSuffix.toList <:+ m'.name.toList) : Alike bs bs' m m'
  | lost {m m' : Member} {f : Fault} (unlocated : m.dataOffset bs = .error f)
      (unlocated' : m'.dataOffset bs' = .error f) : Alike bs bs' m m'
  | entry {m m' : Member} (located : ∃ start, m.dataOffset bs = .ok start)
      (located' : ∃ start, m'.dataOffset bs' = .ok start)
      (presented : presented bs m = presented bs' m') : Alike bs bs' m m'

theorem lost_alike (n : Nat) (h : List.Forall₂ (Alike bs bs') ms ms') :
    lostFrom bs n ms = lostFrom bs' n ms' := by
  unfold lostFrom
  induction h generalizing n with
  | nil => rfl
  | @cons m m' _ _ ha _ ih =>
    have hl : lost? bs (m, n) = lost? bs' (m', n) := by
      cases ha with
      | resource located located' => rw [lost?_located located, lost?_located located']
      | lost unlocated unlocated' => rw [lost?_lost unlocated, lost?_lost unlocated']
      | entry located located' => rw [lost?_located located, lost?_located located']
    rw [List.zipIdx_cons, List.zipIdx_cons, List.filterMap_cons, List.filterMap_cons, hl,
      ih (n + 1)]

theorem classEntries_alike (n : Nat) (h : List.Forall₂ (Alike bs bs') ms ms') :
    (classEntriesFrom bs n ms).map (fun e => presented bs e.1) =
      (classEntriesFrom bs' n ms').map fun e => presented bs' e.1 := by
  unfold classEntriesFrom
  induction h generalizing n with
  | nil => rfl
  | @cons m m' ms ms' ha _ ih =>
    rw [List.zipIdx_cons, List.zipIdx_cons, List.filter_cons, List.filter_cons]
    cases ha with
    | resource _ _ named named' =>
      rw [isListed_resource named, isListed_resource named']
      exact ih (n + 1)
    | lost unlocated unlocated' =>
      rw [isListed_lost unlocated, isListed_lost unlocated']
      exact ih (n + 1)
    | entry located located' same =>
      have hname : m.name = m'.name := congrArg Prod.fst same
      rw [isListed_located located, isListed_located located',
        show isClassEntry m = isClassEntry m' by simp [isClassEntry, hname]]
      split
      · rw [List.map_cons, List.map_cons, ih (n + 1), same]
      · exact ih (n + 1)

/-- A scan depends on its resources in nothing. -/
theorem run_alike (order : EntryOrder) (ho : Opens t path bs ms) (ho' : Opens t' path bs' ms')
    (h : List.Forall₂ (Alike bs bs') ms ms') :
    (run t order path).value? = (run t' order path).value? := by
  have he : presentedEntries order bs ms = presentedEntries order bs' ms' := by
    rw [presentedEntries_eq, presentedEntries_eq, classEntries_alike 0 h]
  rw [run_opens order ho, run_opens order ho', value?_presented, value?_presented, he,
    lost_alike 0 h]

/-- That something at a path cannot be read: the archive as a whole, a local header or a class
entry. -/
inductive Troubled (t : FileTree) (path : String) : Prop where
  | unopened (exist : t.doesExist path = true) (closed : ¬ ∃ bs ms, Opens t path bs ms)
  | lost {bs : Bytes} {ms : List Member} {m : Member} {f : Fault} (opens : Opens t path bs ms)
      (mem : m ∈ ms) (unlocated : m.dataOffset bs = .error f)
  | entry {bs : Bytes} {ms : List Member} {m : Member} (opens : Opens t path bs ms) (mem : m ∈ ms)
      (visited : IsVisited bs m)
      (unparsed : ∀ data h, Readable bs m data → ClassFile.parse data ≠ .ok h)

theorem Gives.unparsed (h : Gives path bs m (.diagnostic d)) :
    ∀ data x, Readable bs m data → ClassFile.parse data ≠ .ok x := by
  intro data x hr
  cases h with
  | undecoded read parsed =>
    have hc := Archive.Member.content_eq_ok.mpr read
    rw [Archive.Member.content_eq_ok.mpr hr] at hc
    cases hc
    rw [parsed]
    simp
  | unread unreadable => exact absurd hr (unreadable data)

theorem run_blames (ho : Opens t path bs ms) (h : (run t order path).value? = some scan) :
    ∀ d ∈ scan.diagnostics, ∃ i m, ms[i]? = some m ∧ Blames path bs i m d := by
  intro d hd
  obtain ⟨l, -, -, hl⟩ := (accounted_of_value h).scanned bs ms ho
  rw [hl] at hd
  exact l.blames hd

theorem Ledger.troubled_iff (l : Ledger path order bs ms) (ho : Opens t path bs ms) :
    l.diagnostics ≠ [] ↔ Troubled t path := by
  constructor
  · intro h
    obtain ⟨d, hd⟩ := List.exists_mem_of_ne_nil _ h
    obtain ⟨i, m, hm, hb⟩ := l.blames hd
    cases hb with
    | lost unlocated => exact .lost ho (List.mem_of_getElem? hm) unlocated
    | entry visited _ given => exact .entry ho (List.mem_of_getElem? hm) visited given.unparsed
  · intro h
    cases h with
    | unopened _ closed => exact absurd ⟨bs, ms, ho⟩ closed
    | @lost _ _ m f ho' mem unlocated =>
      obtain ⟨rfl, rfl⟩ := ho'.unique ho
      obtain ⟨i, hi⟩ := List.getElem?_of_mem mem
      have hl := (l.mem_lost i f).mpr ⟨m, hi, unlocated⟩
      exact List.ne_nil_of_mem (List.mem_append_left _ (List.mem_map.mpr ⟨_, hl, rfl⟩))
    | @entry _ _ m ho' mem visited unparsed =>
      obtain ⟨rfl, rfl⟩ := ho'.unique ho
      obtain ⟨i, hi⟩ := List.getElem?_of_mem mem
      have he := (l.mem_visits m i).mpr ⟨hi, visited.located, visited.named⟩
      have hg := l.gives _ he
      cases hv : visit path bs m with
      | abort =>
        rw [hv] at hg
        cases hg
      | header x =>
        rw [hv] at hg
        cases hg with
        | header read parsed => exact absurd parsed (unparsed _ _ read)
      | diagnostic d =>
        have hd : d ∈ l.visits.filterMap fun e => (visit path bs e.1).diagnostic? :=
          List.mem_filterMap.mpr ⟨_, he, by simp [hv, Visit.diagnostic?]⟩
        exact List.ne_nil_of_mem (List.mem_append_right _ hd)

theorem run_troubled_iff (h : (run t order path).value? = some scan) :
    scan.diagnostics ≠ [] ↔ Troubled t path := by
  have ha := accounted_of_value h
  cases hs : scan.status with
  | missing =>
    have he := ha.missing_iff.mp hs
    obtain ⟨-, hd, -⟩ := ha.missing hs
    constructor
    · intro hn
      exact absurd hd hn
    · intro ht
      have exist : t.doesExist path = true := by
        cases ht with
        | unopened exist => exact exist
        | lost opens => exact exists_of_openNode opens.file
        | entry opens => exact exists_of_openNode opens.file
      rw [he] at exist
      cases exist
  | failed =>
    obtain ⟨exist, closed⟩ := ha.failed_iff.mp hs
    obtain ⟨-, -, d, hd, -⟩ := ha.failed hs
    rw [hd]
    simp [Troubled.unopened exist closed]
  | scanned =>
    obtain ⟨bs, ms, ho⟩ := ha.scanned_iff.mp hs
    obtain ⟨l, -, -, hd⟩ := ha.scanned bs ms ho
    rw [hd]
    exact l.troubled_iff ho

/-- That a diagnostic is the first one of a scan: the one of an archive that does not open, that of
the lost member with the least number, or that of the first class entry, in the order of the
visits, which gives no header. -/
inductive FirstAt (t : FileTree) (order : EntryOrder) (path : String) : Diagnostic → Prop where
  | unopened {d : Diagnostic} (scope : d.scope = .archive)
      (only : (run t order path).value? = some ⟨path, .failed, 0, [], [d]⟩) :
      FirstAt t order path d
  | lost {bs : Bytes} {ms : List Member} {i : Nat} {m : Member} {f : Fault}
      (opens : Opens t path bs ms) (mem : ms[i]? = some m) (unlocated : m.dataOffset bs = .error f)
      (least : ∀ j < i, ∀ m', ms[j]? = some m' → ∃ start, m'.dataOffset bs = .ok start) :
      FirstAt t order path (.unreadEntry path ("#" ++ toString i) f)
  | entry {bs : Bytes} {ms : List Member} {i : Nat} {m : Member} {d : Diagnostic}
      (opens : Opens t path bs ms) (located : ∀ m' ∈ ms, ∃ start, m'.dataOffset bs = .ok start)
      (mem : ms[i]? = some m) (visited : IsVisited bs m) (given : Gives path bs m (.diagnostic d))
      (first : ∀ j m', ms[j]? = some m' → IsVisited bs m' → Precedes order (m', j) (m, i) →
        ∃ h, Gives path bs m' (.header h)) : FirstAt t order path d

theorem Gives.header_of_silent (h : Gives path bs m (visit path bs m))
    (silent : (visit path bs m).diagnostic? = none) : ∃ x, Gives path bs m (.header x) := by
  cases hv : visit path bs m with
  | abort =>
    rw [hv] at h
    cases h
  | header x =>
    rw [hv] at h
    exact ⟨x, h⟩
  | diagnostic d =>
    rw [hv] at silent
    cases silent

theorem Ledger.first (l : Ledger path order bs ms) (ho : Opens t path bs ms)
    {rest : List Diagnostic} (h : l.diagnostics = d :: rest) : FirstAt t order path d := by
  unfold Ledger.diagnostics at h
  cases hl : l.lost with
  | cons x lost =>
    obtain ⟨i, f⟩ := x
    have ordered := l.lost_ordered
    rw [hl] at h ordered
    cases h
    obtain ⟨m, hm, hf⟩ := (l.mem_lost i f).mp (by simp [hl])
    refine .lost ho hm hf ?_
    intro j hj m' hm'
    cases hd : m'.dataOffset bs with
    | ok start => exact ⟨start, rfl⟩
    | error g =>
      have hg := (l.mem_lost j g).mpr ⟨m', hm', hd⟩
      rw [hl] at hg
      rcases List.mem_cons.mp hg with hg | hg
      · cases hg
        omega
      · have := List.rel_of_pairwise_cons ordered hg
        simp only at this
        omega
  | nil =>
    have located : ∀ m' ∈ ms, ∃ start, m'.dataOffset bs = .ok start := by
      intro m' hm'
      obtain ⟨j, hj⟩ := List.getElem?_of_mem hm'
      cases hd : m'.dataOffset bs with
      | ok start => exact ⟨start, rfl⟩
      | error g =>
        have hg := (l.mem_lost j g).mpr ⟨m', hj, hd⟩
        rw [hl] at hg
        cases hg
    rw [hl, List.map_nil, List.nil_append, List.filterMap_eq_cons_iff] at h
    obtain ⟨before, ⟨m, i⟩, after, hv, silent, hd, -⟩ := h
    have ordered := l.visits_ordered
    rw [hv, List.pairwise_append] at ordered
    obtain ⟨hm, hs, hc⟩ := (l.mem_visits m i).mp (by simp [hv])
    refine .entry ho located hm ⟨hs, hc⟩ (visit_gives_diagnostic hd) ?_
    intro j m' hm' hv' hp
    have he := (l.mem_visits m' j).mpr ⟨hm', hv'.located, hv'.named⟩
    have hb : (m', j) ∈ before := by
      rw [hv] at he
      rcases List.mem_append.mp he with hb | hb
      · exact hb
      rcases List.mem_cons.mp hb with hb | hb
      · rw [hb] at hp
        exact absurd hp (precedes_asymm hp)
      · exact absurd hp (precedes_asymm (List.rel_of_pairwise_cons ordered.2.1 hb))
    exact (l.gives _ he).header_of_silent (silent _ hb)

/-- The first diagnostic of a scan is the first one in the order of the visits. -/
theorem run_first {rest : List Diagnostic} (h : (run t order path).value? = some scan)
    (hd : scan.diagnostics = d :: rest) : FirstAt t order path d := by
  have ha := accounted_of_value h
  cases hs : scan.status with
  | missing =>
    rw [(ha.missing hs).2.1] at hd
    cases hd
  | failed =>
    obtain ⟨exist, closed⟩ := ha.failed_iff.mp hs
    obtain ⟨d', scope, -, only⟩ := run_failed order exist closed
    rw [only] at h
    cases h
    cases hd
    exact .unopened scope only
  | scanned =>
    obtain ⟨bs, ms, ho⟩ := ha.scanned_iff.mp hs
    obtain ⟨l, -, -, hl⟩ := ha.scanned bs ms ho
    rw [hl] at hd
    exact l.first ho hd

end JarIndex.Scan
