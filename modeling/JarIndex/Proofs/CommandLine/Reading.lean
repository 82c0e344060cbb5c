import JarIndex.Proofs.CommandLine.Parts
import JarIndex.Proofs.CommandLine.Raised

/-!
# Reading the parts of a command line

Each part adds what it gives to what is given so far, at once or when the reader settles
what waits, so what is given in the end is what the parts ask for, in whatever order they
come.
-/

set_option autoImplicit false

namespace JarIndex.CommandLine

def Given.text? (g : Given) : ValueName → Option String
  | .jarsFile => g.jarsFile
  | .dir => g.dir
  | .format => g.format.map formatText
  | .output => g.output
  | .order => g.order.map orderText

def Given.set (g : Given) : ValueName → String → Given
  | .jarsFile, text => { g with jarsFile := some text }
  | .dir, text => { g with dir := some text }
  | .format, text => { g with format := formatOfText text }
  | .output, text => { g with output := some text }
  | .order, text => { g with order := orderOfText text }

structure Holds (parts : List Part) (g : Given) : Prop where
  words : jarsOf parts = g.words
  texts : ∀ name, textsOf parts name = (g.text? name).toList
  flags : ∀ f, (flagsOf parts).count f = (g.has f).toNat

variable {parts : List Part} {p : Part} {g g' : Given} {s : ParseState} {name : ValueName}
  {text : String} {o : ExtractOptions} {verbose : Bool}

@[simp] theorem formatOfText_formatText (format : Format) :
    formatOfText (formatText format) = some format := by cases format <;> rfl

@[simp] theorem orderOfText_orderText (order : EntryOrder) :
    orderOfText (orderText order) = some order := by cases order <;> rfl

theorem once_ok {α : Type} {before value : Option α} {a : α} (h : before = none)
    (hv : value = some a) : once before value = .ok (some a) := by
  rw [h, hv]
  rfl

theorem pathOfText_eq (h : text ≠ "") : pathOfText text = some text := if_neg h

theorem addValue_eq (h : g.text? name = none) (ha : Accepts name text) :
    g.addValue name text = .ok (g.set name text) := by
  cases name <;> dsimp only [Given.text?, Accepts, Given.addValue, Given.set] at h ha ⊢
  case jarsFile | dir | output =>
    rw [once_ok h (pathOfText_eq ha)]
    rfl
  case format =>
    obtain ⟨format, rfl⟩ := ha
    rw [formatOfText_formatText, once_ok (Option.map_eq_none_iff.mp h) rfl]
    rfl
  case order =>
    obtain ⟨order, rfl⟩ := ha
    rw [orderOfText_orderText, once_ok (Option.map_eq_none_iff.mp h) rfl]
    rfl

@[simp] theorem words_set (g : Given) (name : ValueName) (text : String) :
    (g.set name text).words = g.words := by
  cases name <;> rfl

@[simp] theorem has_set (g : Given) (name : ValueName) (text : String) (f : FlagName) :
    (g.set name text).has f = g.has f := by
  cases name <;> cases f <;> rfl

theorem text?_set (ha : Accepts name text) (other : ValueName) :
    (g.set name text).text? other = if name = other then some text else g.text? other := by
  cases name
  case jarsFile | dir | output => cases other <;> rfl
  case format =>
    obtain ⟨format, rfl⟩ := ha
    cases other <;> cases format <;> rfl
  case order =>
    obtain ⟨order, rfl⟩ := ha
    cases other <;> cases order <;> rfl

@[simp] theorem words_raise (g : Given) (f : FlagName) : (g.raise f).words = g.words := by
  cases f <;> rfl

@[simp] theorem text?_raise (g : Given) (f : FlagName) (name : ValueName) :
    (g.raise f).text? name = g.text? name := by
  cases f <;> cases name <;> rfl

theorem toNat_has_raise {f : FlagName} (hn : f ≠ .help) (hg : g.has f = false) (other : FlagName) :
    ((g.raise f).has other).toNat = (g.has other).toNat + [f].count other := by
  cases f with
  | help => exact absurd rfl hn
  | parallel | strict | verbose => cases other <;> simp_all [Given.raise, Given.has]

theorem Holds.give (h : Holds parts g) (once : Once (parts ++ [p])) :
    ∃ g', p.give g = .ok g' ∧ Holds (parts ++ [p]) g' := by
  cases p with
  | jar path =>
    refine ⟨g.addWord path, rfl, ?_, ?_, ?_⟩
    · rw [jars_snoc, h.words]
      rfl
    · intro name
      rw [texts_snoc, h.texts]
      exact List.append_nil _
    · intro f
      rw [flags_snoc, List.count_append, h.flags]
      cases f <;> rfl
  | value name spelling text =>
    have hl := once.texts name
    have ha : Accepts name text := once.accepts name text (by simp [texts_snoc, Part.text?])
    have hnone : g.text? name = none := by
      rw [texts_snoc, h.texts] at hl
      cases ht : g.text? name with
      | none => rfl
      | some before => simp [ht, Part.text?] at hl
    refine ⟨g.set name text, addValue_eq hnone ha, ?_, ?_, ?_⟩
    · rw [jars_snoc, h.words, words_set]
      exact List.append_nil _
    · intro other
      rw [texts_snoc, h.texts, text?_set ha, Part.text?]
      split
      · rename_i he
        subst he
        rw [hnone]
        rfl
      · exact List.append_nil _
    · intro f
      rw [flags_snoc, List.count_append, h.flags, has_set]
      rfl
  | flag name spelling =>
    have hc := once.flags name
    have hn := spelling.ne_help
    have hg : g.has name = false := by
      rw [flags_snoc, List.count_append, h.flags] at hc
      cases hg : g.has name with
      | false => rfl
      | true => simp [hg, Part.flag?] at hc
    refine ⟨g.raise name, ?_, ?_, ?_, ?_⟩
    · rw [Part.give, addFlag_eq hn, hg]
      rfl
    · rw [jars_snoc, h.words, words_raise]
      exact List.append_nil _
    · intro other
      rw [texts_snoc, h.texts, text?_raise]
      exact List.append_nil _
    · intro other
      rw [flags_snoc, List.count_append, h.flags, toNat_has_raise hn hg]
      rfl

def ready (g : Given) : ParseState := ⟨g, .nothing, false⟩

theorem onlyWords_of_settle (hs : s.settle = .ok (ready g)) : s.onlyWords = false := by
  unfold ParseState.settle at hs
  split at hs
  · cases hs
    rfl
  · cases hs
  · rename_i name value _
    cases hv : s.given.addValue name value with
    | error e =>
      rw [hv] at hs
      cases hs
    | ok g' =>
      rw [hv] at hs
      exact congrArg ParseState.onlyWords (Except.ok.inj hs)
  · split at hs
    · cases hs
    · exact congrArg ParseState.onlyWords (Except.ok.inj hs)

theorem waiting_of_settle (hs : s.settle = .ok (ready g)) (name : ValueName) :
    s.waiting ≠ .option name none := by
  intro hw
  unfold ParseState.settle at hs
  rw [hw] at hs
  cases hs

/-- A word that does not start like an option is the value of an option that waits for one, and
else a word of its own. -/
theorem add_plain (ho : s.onlyWords = false) (h : IsPlainText text) : s.add .extract text =
    match s.waiting with
    | .option name none => .ok { s with waiting := .option name (some text) }
    | _ => s.addWord .extract text := by
  unfold ParseState.add
  rw [ho, if_neg Bool.false_ne_true]
  split
  · rename_i hl
    exact absurd (congrArg List.head? hl) h.2
  · rename_i hl
    exact absurd (congrArg List.head? hl) h.2
  · rename_i hl
    exact absurd (congrArg List.head? hl) h.2
  · cases s
    cases ho
    rfl

theorem add_jar (hs : s.settle = .ok (ready g)) (h : IsPlainText text) :
    s.add .extract text = .ok (ready (g.addWord text)) := by
  rw [add_plain (onlyWords_of_settle hs) h]
  split
  · rename_i name hw
    exact absurd hw (waiting_of_settle hs name)
  · rw [ParseState.addWord, hs]
    rfl

theorem add_name (h : s.onlyWords = false) (name : ValueName) :
    s.add .extract name.word = s.addValue name none := by
  unfold ParseState.add
  rw [h]
  cases name <;> rfl

theorem add_joined (h : s.onlyWords = false) (name : ValueName) (text : String) :
    s.add .extract (name.word ++ "=" ++ text) = s.addValue name (some text) := by
  have hw : (name.word ++ "=" ++ text).toList = name.word.toList ++ '=' :: text.toList := by simp
  have ht : s.addValue name (some text) = s.addValue name (some (String.ofList text.toList)) := by
    rw [String.ofList_toList]
  unfold ParseState.add
  rw [h, hw, ht]
  cases name <;> rfl

theorem add_letter (h : s.onlyWords = false) {letter : Char} (hl : letter ≠ '-')
    (hn : Subcommand.extract.short letter = some (.value name)) :
    s.add .extract (String.ofList ['-', letter]) = s.addValue name none := by
  unfold ParseState.add
  rw [h, String.toList_ofList, if_neg Bool.false_ne_true]
  split
  · simp_all
  · simp_all
  · rename_i he
    cases he
    rw [ParseState.addLetters, hn]
  · simp_all

theorem add_flag (h : s.onlyWords = false) {f : FlagName} (spelling : FlagSpelling f) :
    s.add .extract spelling.word = s.addFlag f := by
  unfold ParseState.add
  rw [h]
  cases spelling with
  | v => exact bind_pure (s.addFlag .verbose)
  | parallel | strict | verbose => rfl

theorem settles_value {word : String} (plain : IsPlainText text) (hs : s.settle = .ok (ready g))
    (hg : g.addValue name text = .ok g') (hw : s.add .extract word = s.addValue name none) :
    ∃ s', s.addAll .extract [word, text] = .ok s' ∧ s'.settle = .ok (ready g') := by
  have hn : s.addValue name none = .ok { ready g with waiting := .option name none } := by
    rw [ParseState.addValue, hs]
    rfl
  refine ⟨{ ready g with waiting := .option name (some text) }, ?_, ?_⟩
  · rw [ParseState.addAll, List.foldlM_cons, hw, hn]
    exact (bind_pure _).trans (add_plain rfl plain)
  · show (g.addValue name text >>= _) = _
    rw [hg]
    rfl

/-- A part that can be given is given when the reader settles what waits after its words. -/
theorem addAll_words (plain : p.IsPlain) (hs : s.settle = .ok (ready g))
    (hg : p.give g = .ok g') :
    ∃ s', s.addAll .extract p.words = .ok s' ∧ s'.settle = .ok (ready g') := by
  have ho := onlyWords_of_settle hs
  cases p with
  | jar path =>
    cases hg
    exact ⟨_, (bind_pure _).trans (add_jar hs plain), rfl⟩
  | value name spelling text =>
    have hg' : g.addValue name text = .ok g' := hg
    cases spelling with
    | spaced => exact settles_value plain hs hg' (add_name ho name)
    | f => exact settles_value plain hs hg' (add_letter ho (by decide) rfl)
    | o => exact settles_value plain hs hg' (add_letter ho (by decide) rfl)
    | joined =>
      refine ⟨ready g', (bind_pure _).trans ((add_joined ho name text).trans ?_), rfl⟩
      rw [ParseState.addValue, hs]
      show (g.addValue name text >>= _) = _
      rw [hg']
      rfl
  | flag name spelling =>
    refine ⟨ready g', (bind_pure _).trans ((add_flag ho spelling).trans ?_), rfl⟩
    have hg' : g.addFlag name = .ok g' := hg
    rw [ParseState.addFlag, hs]
    show (g.addFlag name >>= _) = _
    rw [hg']
    rfl

theorem words_snoc (parts : List Part) (p : Part) :
    wordsOf (parts ++ [p]) = wordsOf parts ++ p.words := by
  simp [wordsOf]

theorem holds_nothing : Holds [] .nothing where
  words := rfl
  texts name := by cases name <;> rfl
  flags f := by cases f <;> rfl

theorem addAll_parts (plain : ∀ p ∈ parts, p.IsPlain) (once : Once parts) :
    ∃ g s, Holds parts g ∧ ParseState.start.addAll .extract (wordsOf parts) = .ok s ∧
      s.settle = .ok (ready g) := by
  induction parts using List.reverseRecOn with
  | nil => exact ⟨.nothing, .start, holds_nothing, rfl, rfl⟩
  | append_singleton parts p ih =>
    obtain ⟨g, s, holds, hs, hsettle⟩ :=
      ih (fun q hq => plain q (List.mem_append_left _ hq)) once.front
    obtain ⟨g', hg, holds'⟩ := holds.give once
    obtain ⟨s', hs', hsettle'⟩ := addAll_words (plain p (by simp)) hsettle hg
    refine ⟨g', s', holds', ?_, hsettle'⟩
    rw [words_snoc, ParseState.addAll, List.foldlM_append]
    show (ParseState.start.addAll .extract (wordsOf parts) >>= _) = _
    rw [hs]
    exact hs'

theorem toList_injective {α : Type} : Function.Injective (Option.toList : Option α → List α) := by
  intro a b h
  cases a <;> cases b <;> simp_all

theorem toNat_injective : Function.Injective Bool.toNat := by
  intro a b h
  cases a <;> cases b <;> simp_all

theorem formatText_injective : Function.Injective formatText := by
  intro a b h
  simpa using congrArg formatOfText h

theorem orderText_injective : Function.Injective orderText := by
  intro a b h
  simpa using congrArg orderOfText h

theorem Holds.extractOptions (holds : Holds parts g) (asks : AsksFor parts o verbose) :
    extractOptions g = o ∧ g.verbose = verbose := by
  have hformat : g.format.getD .json = o.format := by
    have ht : textsOf parts .format = (g.format.map formatText).toList := holds.texts .format
    rcases asks.format with hf | ⟨hf, hj⟩
    · have hs : g.format.map formatText = some (formatText o.format) :=
        toList_injective (ht.symm.trans hf)
      obtain ⟨format, hg, he⟩ := Option.map_eq_some_iff.mp hs
      rw [hg, formatText_injective he]
      rfl
    · have hn : g.format.map formatText = none := toList_injective (ht.symm.trans hf)
      rw [Option.map_eq_none_iff.mp hn, hj]
      rfl
  have hwords : g.words = o.jars := holds.words.symm.trans asks.jars
  have hjarsFile : g.jarsFile = o.jarsFile :=
    toList_injective ((holds.texts .jarsFile).symm.trans asks.jarsFile)
  have hdir : g.dir = o.dir := toList_injective ((holds.texts .dir).symm.trans asks.dir)
  have houtput : g.output = o.output :=
    toList_injective ((holds.texts .output).symm.trans asks.output)
  have horder : g.order = o.order := Option.map_injective orderText_injective
    (toList_injective ((holds.texts .order).symm.trans asks.order))
  have hparallel : g.parallel = o.parallel :=
    toNat_injective ((holds.flags .parallel).symm.trans asks.parallel)
  have hstrict : g.strict = o.strict :=
    toNat_injective ((holds.flags .strict).symm.trans asks.strict)
  have hverbose : g.verbose = verbose :=
    toNat_injective ((holds.flags .verbose).symm.trans asks.verbose)
  unfold CommandLine.extractOptions
  rw [hwords, hjarsFile, hdir, hformat, houtput, horder, hparallel, hstrict]
  exact ⟨rfl, hverbose⟩

/-- The words of parts that ask for some options are read as these, in whatever order they come. -/
theorem readWords_parts (plain : o.IsPlain) (asks : AsksFor parts o verbose) :
    ∃ g, readWords (wordsOf parts) .start = .ok (ready g) ∧ extractOptions g = o ∧
      g.verbose = verbose := by
  obtain ⟨g, s, holds, hs, hsettle⟩ := addAll_parts (asks.isPlain plain) (asks.once plain)
  refine ⟨g, ?_, holds.extractOptions asks⟩
  rw [readWords, hs]
  exact hsettle

end JarIndex.CommandLine
