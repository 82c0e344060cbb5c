import JarIndex.CommandLine.Parse

/-!
# A flag more

What reads an extraction's words reads them to the same end with a flag put in front
of them, if they do not give the flag themselves, and then the flag is given.
-/

set_option autoImplicit false

namespace JarIndex.CommandLine

def Given.has (g : Given) : FlagName → Bool
  | .parallel => g.parallel
  | .strict => g.strict
  | .verbose => g.verbose
  | .help => false

def Given.raise (g : Given) : FlagName → Given
  | .parallel => { g with parallel := true }
  | .strict => { g with strict := true }
  | .verbose => { g with verbose := true }
  | .help => g

def ParseState.raise (s : ParseState) (f : FlagName) : ParseState :=
  { s with given := s.given.raise f }

/-- That a step on what is given does not lower a flag, and does the same to what has it in addition
if it does not raise it. -/
def Gives (f : FlagName) (step : Given → Parsing Given) : Prop :=
  ∀ g g', step g = .ok g' → g'.has f = false →
    g.has f = false ∧ step (g.raise f) = .ok (g'.raise f)

def Respects (f : FlagName) (step : ParseState → Parsing ParseState) : Prop :=
  ∀ s s', step s = .ok s' → s'.given.has f = false →
    s.given.has f = false ∧ step (s.raise f) = .ok (s'.raise f)

variable {f : FlagName} {step next : ParseState → Parsing ParseState} {c : Subcommand}

theorem gives_addValue (f : FlagName) (name : ValueName) (value : String) :
    Gives f fun g => g.addValue name value := by
  intro g g' h hf
  cases name <;> simp only [Given.addValue] at h ⊢ <;> cases f <;>
    · revert h
      simp only [Given.raise]
      generalize once _ _ = r
      intro h
      cases r with
      | error e => cases h
      | ok v =>
        cases h
        exact ⟨hf, rfl⟩

theorem addFlag_eq {g : Given} {name : FlagName} (hn : name ≠ .help) : g.addFlag name =
    if g.has name then .error .argumentConflict else .ok (g.raise name) := by
  cases name with
  | parallel => cases hg : g.parallel <;> simp only [Given.addFlag, Given.has, hg] <;> rfl
  | strict => cases hg : g.strict <;> simp only [Given.addFlag, Given.has, hg] <;> rfl
  | verbose => cases hg : g.verbose <;> simp only [Given.addFlag, Given.has, hg] <;> rfl
  | help => exact absurd rfl hn

theorem has_raise {g : Given} {name : FlagName} : (g.raise name).has f = false ↔
    (name = .help ∨ name ≠ f) ∧ g.has f = false := by
  cases name <;> cases f <;> simp [Given.raise, Given.has]

theorem raise_comm (g : Given) (f name : FlagName) :
    (g.raise f).raise name = (g.raise name).raise f := by
  cases name <;> cases f <;> rfl

theorem gives_addFlag (f name : FlagName) : Gives f fun g => g.addFlag name := by
  intro g g' h hf
  by_cases hn : name = .help
  · subst hn
    cases h
  · dsimp only at h ⊢
    rw [addFlag_eq hn] at h ⊢
    split at h
    · cases h
    · rename_i hg
      cases h
      obtain ⟨hne, hf⟩ := has_raise.mp hf
      have hg' : (g.raise f).has name = false :=
        has_raise.mpr ⟨.inr (hne.resolve_left hn).symm, by simpa using hg⟩
      rw [hg', raise_comm]
      exact ⟨hf, rfl⟩

theorem respects_pure : Respects f .ok := by
  intro s s' h hf
  cases h
  exact ⟨hf, rfl⟩

theorem Respects.bind (h : Respects f step) (hn : Respects f next) :
    Respects f fun s => step s >>= next := by
  intro s s'' he hf
  dsimp only at he ⊢
  cases hs : step s with
  | error e =>
    rw [hs] at he
    cases he
  | ok s' =>
    rw [hs] at he
    obtain ⟨hf', he'⟩ := hn s' s'' he hf
    obtain ⟨hf₀, hs'⟩ := h s s' hs hf'
    refine ⟨hf₀, ?_⟩
    rw [hs']
    exact he'

theorem respects_addAll (h : ∀ word, Respects f fun s => s.add c word) (words : List String) :
    Respects f fun s => s.addAll c words := by
  induction words with
  | nil => exact respects_pure
  | cons word words ih => exact (h word).bind ih

theorem Gives.respects {step : Given → Parsing Given} (h : Gives f step) (w : Waiting → Waiting) :
    Respects f fun s => do
      let g ← step s.given
      return { s with given := g, waiting := w s.waiting } := by
  intro s s' he hf
  dsimp only at he ⊢
  cases hg : step s.given with
  | error e =>
    rw [hg] at he
    cases he
  | ok g =>
    rw [hg] at he
    cases he
    obtain ⟨hf₀, hr⟩ := h s.given g hg hf
    have hr' : step (s.raise f).given = .ok (g.raise f) := hr
    rw [hr']
    exact ⟨hf₀, rfl⟩

theorem gives_addWord (f : FlagName) (word : String) : Gives f fun g => .ok (g.addWord word) := by
  intro g g' h hf
  cases h
  cases f <;> exact ⟨hf, rfl⟩

theorem respects_settle (f : FlagName) : Respects f ParseState.settle := by
  intro s s' h hf
  have hw : (s.raise f).waiting = s.waiting := rfl
  unfold ParseState.settle at h ⊢
  rw [hw]
  split at h
  · cases h
    exact ⟨hf, rfl⟩
  · cases h
  · rename_i name value _
    exact (gives_addValue f name value).respects (fun _ => .nothing) s s' h hf
  · rename_i word _
    split at h
    · cases h
    · rename_i hne
      rw [if_neg hne]
      exact (gives_addWord f word).respects (fun _ => .nothing) s s' h hf

theorem respects_addValue (f : FlagName) (name : ValueName) (value : Option String) :
    Respects f fun s => s.addValue name value := by
  apply (respects_settle f).bind
  cases value with
  | none =>
    intro s s' h hf
    cases h
    exact ⟨hf, rfl⟩
  | some value => exact (gives_addValue f name value).respects id

theorem respects_addFlag (f name : FlagName) : Respects f fun s => s.addFlag name :=
  (respects_settle f).bind ((gives_addFlag f name).respects id)

theorem respects_addWord (f : FlagName) (word : String) :
    Respects f fun s => s.addWord .extract word :=
  (respects_settle f).bind ((gives_addWord f word).respects id)

theorem respects_addLong (f : FlagName) (text : List Char) :
    Respects f fun s => s.addLong .extract text := by
  intro s s' h hf
  unfold ParseState.addLong at h ⊢
  dsimp only at h ⊢
  split at h
  · cases h
  · cases h
  · exact respects_addFlag f _ s s' h hf
  · exact respects_addValue f _ _ s s' h hf

theorem respects_addLetters (f : FlagName) (letters : List Char) :
    Respects f fun s => s.addLetters .extract letters := by
  induction letters with
  | nil => exact respects_pure
  | cons letter rest ih =>
    intro s s' h hf
    simp only [ParseState.addLetters] at h ⊢
    split at h
    · cases h
    · exact (respects_addFlag f _).bind ih s s' h hf
    · split at h
      · exact respects_addValue f _ _ s s' h hf
      · exact respects_addValue f _ _ s s' h hf
      · exact respects_addValue f _ _ s s' h hf

theorem respects_add (f : FlagName) (word : String) : Respects f fun s => s.add .extract word := by
  intro s s' h hf
  have hw : (s.raise f).waiting = s.waiting := rfl
  have ho : (s.raise f).onlyWords = s.onlyWords := rfl
  unfold ParseState.add at h ⊢
  dsimp only at h ⊢
  rw [ho, hw]
  split at h
  · rename_i hwords
    rw [if_pos hwords]
    exact respects_addWord f word s s' h hf
  · rename_i hwords
    rw [if_neg hwords]
    split at h
    · cases h
      exact ⟨hf, rfl⟩
    · exact respects_addLong f _ s s' h hf
    · exact respects_addLetters f _ s s' h hf
    · split at h
      · cases h
        exact ⟨hf, rfl⟩
      · exact respects_addWord f word s s' h hf

def flagWord : FlagName → String
  | .parallel => "--parallel"
  | .strict => "--strict"
  | .verbose => "--verbose"
  | .help => "--help"

variable {program : String} {words : List String} {o : ExtractOptions} {v : Bool}

def readWords (words : List String) (s : ParseState) : Parsing ParseState :=
  s.addAll .extract words >>= ParseState.settle

theorem parseSubcommand_extract (v : Bool) (words : List String) :
    parseSubcommand .extract v words = (readWords words .start).map fun s =>
      ⟨.extract (extractOptions s.given), v || s.given.verbose⟩ := by
  unfold parseSubcommand readWords
  cases ParseState.start.addAll .extract words with
  | error e => rfl
  | ok s =>
    cases hs : s.settle with
    | error e => simp [bind, Except.bind, Except.map, hs]
    | ok s' => simp [bind, Except.bind, Except.map, hs, pure, Except.pure]

theorem parse_extract (program : String) (words : List String) :
    parse (program :: "extract" :: words) = (readWords words .start).map fun s =>
      ⟨.extract (extractOptions s.given), s.given.verbose⟩ := parseSubcommand_extract false words

theorem respects_readWords (f : FlagName) (words : List String) : Respects f (readWords words) :=
  (respects_addAll (respects_add f) words).bind (respects_settle f)

theorem readWords_flagWord (hn : f ≠ .help) (words : List String) :
    readWords (flagWord f :: words) .start = readWords words (ParseState.start.raise f) := by
  cases f with
  | help => exact absurd rfl hn
  | parallel => rfl
  | strict => rfl
  | verbose => rfl

theorem parse_flagWord (hn : f ≠ .help)
    (h : parse (program :: "extract" :: words) = .ok ⟨.extract o, v⟩) :
    ∃ g, o = extractOptions g ∧ v = g.verbose ∧ (g.has f = false →
      parse (program :: "extract" :: flagWord f :: words) =
        .ok ⟨.extract (extractOptions (g.raise f)), (g.raise f).verbose⟩) := by
  rw [parse_extract] at h
  cases hs : readWords words .start with
  | error e =>
    rw [hs] at h
    cases h
  | ok s =>
    rw [hs] at h
    cases h
    refine ⟨s.given, rfl, rfl, fun hf => ?_⟩
    rw [parse_extract, readWords_flagWord hn, (respects_readWords f words _ _ hs hf).2]
    rfl

end JarIndex.CommandLine
