import JarIndex.Proofs.CommandLine.Reading

/-!
# A command line without subcommand

The subcommand of a command line whose first word besides the global flags names none is put
in front of that word. As no part of an extraction is taken apart by this, whatever the order
of the parts, they are read as if the subcommand had been given.
-/

set_option autoImplicit false

namespace JarIndex.CommandLine

section Insertion
variable {words : List String} {word : String}

theorem withSubcommand_cases (words : List String) : withSubcommand words = words ∨
    ∃ flags word rest, words = flags ++ word :: rest ∧ (∀ f ∈ flags, f ∈ globalFlags) ∧
      word ∉ globalFlags ∧ word ∉ subcommands ∧
      withSubcommand words = flags ++ "extract" :: word :: rest := by
  induction words with
  | nil => exact .inl rfl
  | cons a as ih =>
    unfold withSubcommand
    split
    · rename_i ha
      rcases ih with ih | ⟨flags, word, rest, rfl, hflags, hword, hbare, ih⟩
      · exact .inl (congrArg (a :: ·) ih)
      · refine .inr ⟨a :: flags, word, rest, rfl, ?_, hword, hbare, congrArg (a :: ·) ih⟩
        exact List.forall_mem_cons.mpr ⟨ha, hflags⟩
    · rename_i ha
      split
      · exact .inl rfl
      · rename_i hbare
        exact .inr ⟨[], a, as, rfl, List.forall_mem_nil _, ha, hbare, rfl⟩

theorem withSubcommand_named (h : words.find? (· ∉ globalFlags) = some word)
    (named : word ∈ subcommands) : withSubcommand words = words := by
  induction words with
  | nil => rfl
  | cons a as ih =>
    unfold withSubcommand
    rw [List.find?_cons] at h
    split
    · rename_i ha
      simp only [ha, not_true, decide_false] at h
      rw [ih h]
    · rename_i ha
      simp only [ha, not_false_iff, decide_true] at h
      cases h
      exact if_pos named

theorem withSubcommand_twice (words : List String) :
    withSubcommand (withSubcommand words) = withSubcommand words := by
  induction words with
  | nil => rfl
  | cons a as ih =>
    by_cases ha : a ∈ globalFlags
    · simp only [withSubcommand, if_pos ha, ih]
    · by_cases hs : a ∈ subcommands
      · simp only [withSubcommand, if_neg ha, if_pos hs]
      · rw [withSubcommand, if_neg ha, if_neg hs]
        rfl

end Insertion

def verboseFlags : List String := ["-v", "--verbose"]

variable {parts : List Part} {p : Part} {o : ExtractOptions} {verbose : Bool} {word : String}

theorem Part.exists_words (plain : p.IsPlain) (hp : p.flag? ≠ some .verbose) :
    ∃ w ws, p.words = w :: ws ∧ w ∉ globalFlags := by
  cases p with
  | jar path =>
    have hd : ∀ f ∈ globalFlags, f.toList.head? = some '-' := by decide
    exact ⟨path, [], rfl, fun hm => plain.2 (hd path hm)⟩
  | value name spelling text =>
    cases spelling with
    | spaced => exact ⟨name.word, [text], rfl, by cases name <;> decide⟩
    | joined =>
      have hd : ∀ f ∈ globalFlags, '=' ∉ f.toList := by decide
      exact ⟨name.word ++ "=" ++ text, [], rfl, fun hm => hd _ hm (by simp)⟩
    | f => exact ⟨"-f", [text], rfl, by decide⟩
    | o => exact ⟨"-o", [text], rfl, by decide⟩
  | flag name spelling =>
    cases spelling with
    | parallel => exact ⟨"--parallel", [], rfl, by decide⟩
    | strict => exact ⟨"--strict", [], rfl, by decide⟩
    | verbose | v => exact absurd rfl hp

theorem withSubcommand_parts (plain : p.IsPlain) (hp : p.flag? ≠ some .verbose)
    (first : (wordsOf (p :: parts)).find? (· ∉ verboseFlags) = some word)
    (bare : word ∉ subcommands) :
    withSubcommand (wordsOf (p :: parts)) = "extract" :: wordsOf (p :: parts) := by
  obtain ⟨w, ws, hw, hg⟩ := Part.exists_words plain hp
  have hwords : wordsOf (p :: parts) = w :: (ws ++ wordsOf parts) := by
    rw [wordsOf, List.flatMap_cons, hw]
    rfl
  have hv : w ∉ verboseFlags := fun hm => hg (List.mem_append_left ["-h", "--help"] hm)
  rw [hwords, List.find?_cons_of_pos (by simpa using hv)] at first
  cases first
  rw [hwords, withSubcommand, if_neg hg, if_neg bare]

theorem AsksFor.tail (asks : AsksFor (p :: parts) o verbose) (hp : p.flag? = some .verbose) :
    verbose = true ∧ AsksFor parts o false := by
  cases p with
  | jar | value => cases hp
  | flag name spelling =>
    cases hp
    have hf : flagsOf (.flag .verbose spelling :: parts) = .verbose :: flagsOf parts := rfl
    obtain ⟨hjars, hjarsFile, hdir, hformat, houtput, horder, hparallel, hstrict, hverbose⟩ := asks
    rw [hf] at hparallel hstrict hverbose
    rw [List.count_cons_self] at hverbose
    cases verbose with
    | false => cases hverbose
    | true => exact ⟨rfl, hjars, hjarsFile, hdir, hformat, houtput, horder, hparallel, hstrict,
        Nat.succ.inj hverbose⟩

theorem parseWords_parts (plain : o.IsPlain) (asks : AsksFor parts o verbose) (v : Bool) :
    parseWords v ("extract" :: wordsOf parts) = .ok ⟨.extract o, v || verbose⟩ := by
  obtain ⟨g, hg, rfl, rfl⟩ := readWords_parts plain asks
  have hp : parseWords v ("extract" :: wordsOf parts) = _ :=
    parseSubcommand_extract v (wordsOf parts)
  rw [hp, hg]
  rfl

theorem parseWords_verbose (hp : p.flag? = some .verbose) (ws : List String) :
    parseWords false (withSubcommand (p.words ++ ws)) = parseWords true (withSubcommand ws) ∧
      (p.words ++ ws).find? (· ∉ verboseFlags) = ws.find? (· ∉ verboseFlags) := by
  cases p with
  | jar | value => cases hp
  | flag name spelling =>
    cases hp
    cases spelling <;> exact ⟨rfl, rfl⟩

theorem parse_parts (program : String) (plain : o.IsPlain) (asks : AsksFor parts o verbose)
    (first : (wordsOf parts).find? (· ∉ verboseFlags) = some word) (bare : word ∉ subcommands) :
    parse (program :: wordsOf parts) = .ok ⟨.extract o, verbose⟩ := by
  show parseWords false (withSubcommand (wordsOf parts)) = _
  have isPlain := asks.isPlain plain
  cases parts with
  | nil => cases first
  | cons p parts =>
    by_cases hp : p.flag? = some .verbose
    · obtain ⟨rfl, asks'⟩ := asks.tail hp
      obtain ⟨hparse, hfind⟩ := parseWords_verbose hp (wordsOf parts)
      have hwords : wordsOf (p :: parts) = p.words ++ wordsOf parts := rfl
      rw [hwords, hfind] at first
      rw [hwords, hparse]
      cases parts with
      | nil => cases first
      | cons q parts =>
        have hq : q.flag? ≠ some .verbose := by
          intro hq
          have hm : .verbose ∈ flagsOf (q :: parts) :=
            List.mem_filterMap.mpr ⟨q, List.mem_cons_self, hq⟩
          exact List.count_eq_zero.mp asks'.verbose hm
        rw [withSubcommand_parts (isPlain q (by simp)) hq first bare]
        exact parseWords_parts plain asks' true
    · rw [withSubcommand_parts (isPlain p List.mem_cons_self) hp first bare]
      exact parseWords_parts plain asks false

/-- A command line without subcommand is one for an extraction, whatever the order of its parts
and whatever their values are, and gets nothing but the subcommand. -/
theorem bare_line_extracts :
    (∀ program parts o verbose word, o.IsPlain → AsksFor parts o verbose →
      (wordsOf parts).find? (· ∉ verboseFlags) = some word → word ∉ subcommands →
      parse (program :: wordsOf parts) = .ok ⟨.extract o, verbose⟩) ∧
    (∀ args, implicitExtract args = args ∨
      ∃ program flags word rest, args = program :: (flags ++ word :: rest) ∧
        (∀ f ∈ flags, f ∈ globalFlags) ∧ word ∉ globalFlags ∧ word ∉ subcommands ∧
        implicitExtract args = program :: (flags ++ "extract" :: word :: rest)) ∧
    (∀ program words word, words.find? (· ∉ globalFlags) = some word → word ∈ subcommands →
      implicitExtract (program :: words) = program :: words) ∧
    ∀ args, implicitExtract (implicitExtract args) = implicitExtract args := by
  refine ⟨?_, ?_, ?_, ?_⟩
  · intro program parts o verbose word plain asks first bare
    exact parse_parts program plain asks first bare
  · intro args
    cases args with
    | nil => exact .inl rfl
    | cons program words =>
      rcases withSubcommand_cases words with hw | ⟨flags, word, rest, rfl, hf, hword, hbare, hw⟩
      · exact .inl (congrArg (program :: ·) hw)
      · exact .inr ⟨program, flags, word, rest, rfl, hf, hword, hbare, congrArg (program :: ·) hw⟩
  · intro program words word first named
    exact congrArg (program :: ·) (withSubcommand_named first named)
  · intro args
    cases args with
    | nil => rfl
    | cons program words => exact congrArg (program :: ·) (withSubcommand_twice words)

/-- The parts of a command line with values and jars that are called like subcommands. -/
def mixedParts : List Part :=
  [.flag .verbose .v, .value .dir (.spaced .dir) "extract", .jar "help",
    .value .order (.joined .order) "native", .value .format .f "text", .flag .parallel .parallel,
    .jar "inspect", .value .output .o "a=b", .jar "help"]

theorem bare_line_extracts_sample :
    wordsOf mixedParts = ["-v", "--dir", "extract", "help", "--order=native", "-f", "text",
      "--parallel", "inspect", "-o", "a=b", "help"] ∧
    parse ("jar-index" :: wordsOf mixedParts) = .ok ⟨.extract ⟨["help", "inspect", "help"], none,
      some "extract", .text, some "a=b", some .native, true, false⟩, true⟩ ∧
    implicitExtract ["jar-index", "-v", "inspect", "x"] = ["jar-index", "-v", "inspect", "x"] := by
  obtain ⟨parsed, -, unchanged, -⟩ := bare_line_extracts
  refine ⟨rfl, parsed _ _ _ _ "--dir" ?_ ?_ (by decide) (by decide), ?_⟩
  · constructor <;> decide
  · constructor <;> decide
  · exact unchanged _ _ "inspect" (by decide) (by decide)

end JarIndex.CommandLine
