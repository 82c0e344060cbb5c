import JarIndex.CommandLine.Parse
import Mathlib.Data.List.Induction

/-!
# The parts of a command line

A command line is made of parts that may come in any order: jars, flags, and options with
their values, each of which can be written in several ways.
-/

set_option autoImplicit false

namespace JarIndex.CommandLine

def ValueName.word : ValueName → String
  | .jarsFile => "--jars-file"
  | .dir => "--dir"
  | .format => "--format"
  | .output => "--output"
  | .order => "--order"

inductive Spelling : ValueName → Type where
  | spaced (name : ValueName) : Spelling name
  | joined (name : ValueName) : Spelling name
  | f : Spelling .format
  | o : Spelling .output

def Spelling.words {name : ValueName} : Spelling name → String → List String
  | .spaced name, text => [name.word, text]
  | .joined name, text => [name.word ++ "=" ++ text]
  | .f, text => ["-f", text]
  | .o, text => ["-o", text]

inductive FlagSpelling : FlagName → Type where
  | parallel : FlagSpelling .parallel
  | strict : FlagSpelling .strict
  | verbose : FlagSpelling .verbose
  | v : FlagSpelling .verbose

def FlagSpelling.word {name : FlagName} : FlagSpelling name → String
  | .parallel => "--parallel"
  | .strict => "--strict"
  | .verbose => "--verbose"
  | .v => "-v"

inductive Part where
  | jar (path : String)
  | value (name : ValueName) (spelling : Spelling name) (text : String)
  | flag (name : FlagName) (spelling : FlagSpelling name)

namespace Part

def words : Part → List String
  | .jar path => [path]
  | .value _ spelling text => spelling.words text
  | .flag _ spelling => [spelling.word]

def jar? : Part → Option String
  | .jar path => some path
  | _ => none

def text? (name : ValueName) : Part → Option String
  | .value other _ text => if other = name then some text else none
  | _ => none

def flag? : Part → Option FlagName
  | .flag name _ => some name
  | _ => none

def give : Part → Given → Parsing Given
  | .jar path, g => .ok (g.addWord path)
  | .value name _ text, g => g.addValue name text
  | .flag name _, g => g.addFlag name

end Part

def wordsOf (parts : List Part) : List String := parts.flatMap Part.words

def jarsOf (parts : List Part) : List String := parts.filterMap Part.jar?

def textsOf (parts : List Part) (name : ValueName) : List String :=
  parts.filterMap (Part.text? name)

def flagsOf (parts : List Part) : List FlagName := parts.filterMap Part.flag?

def formatText : Format → String
  | .json => "json"
  | .text => "text"

def orderText : EntryOrder → String
  | .native => "native"
  | .canonical => "canonical"

/-- That a text can stand for itself: it is not empty and does not start like an option. -/
def IsPlainText (s : String) : Prop := s ≠ "" ∧ s.toList.head? ≠ some '-'

instance : DecidablePred IsPlainText := fun _ => inferInstanceAs (Decidable (_ ∧ _))

structure ExtractOptions.IsPlain (o : ExtractOptions) : Prop where
  jars : ∀ path ∈ o.jars, IsPlainText path
  jarsFile : ∀ path ∈ o.jarsFile, IsPlainText path
  dir : ∀ path ∈ o.dir, IsPlainText path
  output : ∀ path ∈ o.output, IsPlainText path

/-- That parts give these options: the jars in their order, and once each option that is set, but
that the format may be left out if it is the default. -/
structure AsksFor (parts : List Part) (o : ExtractOptions) (verbose : Bool) : Prop where
  jars : jarsOf parts = o.jars
  jarsFile : textsOf parts .jarsFile = o.jarsFile.toList
  dir : textsOf parts .dir = o.dir.toList
  format : textsOf parts .format = [formatText o.format] ∨
    textsOf parts .format = [] ∧ o.format = .json
  output : textsOf parts .output = o.output.toList
  order : textsOf parts .order = (o.order.map orderText).toList
  parallel : (flagsOf parts).count .parallel = o.parallel.toNat
  strict : (flagsOf parts).count .strict = o.strict.toNat
  verbose : (flagsOf parts).count .verbose = verbose.toNat

def Part.IsPlain : Part → Prop
  | .jar path => IsPlainText path
  | .value _ _ text => IsPlainText text
  | .flag _ _ => True

def Accepts : ValueName → String → Prop
  | .format, text => ∃ format, text = formatText format
  | .order, text => ∃ order, text = orderText order
  | _, text => text ≠ ""

structure Once (parts : List Part) : Prop where
  texts : ∀ name, (textsOf parts name).length ≤ 1
  flags : ∀ f, (flagsOf parts).count f ≤ 1
  accepts : ∀ name, ∀ text ∈ textsOf parts name, Accepts name text

variable {parts : List Part} {p : Part} {name : ValueName} {text : String} {o : ExtractOptions}
  {verbose : Bool}

theorem filterMap_snoc {α : Type} (f : Part → Option α) (parts : List Part) (p : Part) :
    (parts ++ [p]).filterMap f = parts.filterMap f ++ (f p).toList := by
  rw [List.filterMap_append, List.filterMap_cons]
  cases f p <;> rfl

theorem jars_snoc (parts : List Part) (p : Part) :
    jarsOf (parts ++ [p]) = jarsOf parts ++ p.jar?.toList := filterMap_snoc _ parts p

theorem texts_snoc (parts : List Part) (p : Part) (name : ValueName) :
    textsOf (parts ++ [p]) name = textsOf parts name ++ (p.text? name).toList :=
  filterMap_snoc _ parts p

theorem flags_snoc (parts : List Part) (p : Part) :
    flagsOf (parts ++ [p]) = flagsOf parts ++ p.flag?.toList := filterMap_snoc _ parts p

theorem Once.front (h : Once (parts ++ [p])) : Once parts where
  texts name := by
    have hl := h.texts name
    rw [texts_snoc, List.length_append] at hl
    omega
  flags f := by
    have hc := h.flags f
    rw [flags_snoc, List.count_append] at hc
    omega
  accepts name text ht := by
    refine h.accepts name text ?_
    rw [texts_snoc]
    exact List.mem_append_left _ ht

theorem FlagSpelling.ne_help {f : FlagName} (spelling : FlagSpelling f) : f ≠ .help := by
  cases spelling <;> exact FlagName.noConfusion

theorem isPlainText_formatText (format : Format) : IsPlainText (formatText format) := by
  cases format <;> decide

theorem isPlainText_orderText (order : EntryOrder) : IsPlainText (orderText order) := by
  cases order <;> decide

theorem AsksFor.accepts (asks : AsksFor parts o verbose) (plain : o.IsPlain)
    (h : text ∈ textsOf parts name) : Accepts name text ∧ IsPlainText text := by
  cases name with
  | jarsFile =>
    rw [asks.jarsFile, Option.mem_toList] at h
    exact ⟨(plain.jarsFile text h).1, plain.jarsFile text h⟩
  | dir =>
    rw [asks.dir, Option.mem_toList] at h
    exact ⟨(plain.dir text h).1, plain.dir text h⟩
  | output =>
    rw [asks.output, Option.mem_toList] at h
    exact ⟨(plain.output text h).1, plain.output text h⟩
  | format =>
    rcases asks.format with hf | ⟨hf, -⟩
    · rw [hf, List.mem_singleton] at h
      subst h
      exact ⟨⟨_, rfl⟩, isPlainText_formatText _⟩
    · rw [hf] at h
      cases h
  | order =>
    rw [asks.order, Option.mem_toList, Option.map_eq_some_iff] at h
    obtain ⟨order, -, rfl⟩ := h
    exact ⟨⟨order, rfl⟩, isPlainText_orderText order⟩

theorem AsksFor.isPlain (asks : AsksFor parts o verbose) (plain : o.IsPlain) :
    ∀ p ∈ parts, p.IsPlain := by
  intro p hp
  cases p with
  | jar path =>
    refine plain.jars path ?_
    rw [← asks.jars]
    exact List.mem_filterMap.mpr ⟨_, hp, rfl⟩
  | value name spelling text =>
    have hm : text ∈ textsOf parts name := List.mem_filterMap.mpr ⟨_, hp, if_pos rfl⟩
    exact (asks.accepts plain hm).2
  | flag => trivial

theorem AsksFor.once (asks : AsksFor parts o verbose) (plain : o.IsPlain) : Once parts where
  texts name := by
    cases name with
    | jarsFile => exact asks.jarsFile ▸ Option.length_toList_le
    | dir => exact asks.dir ▸ Option.length_toList_le
    | output => exact asks.output ▸ Option.length_toList_le
    | order => exact asks.order ▸ Option.length_toList_le
    | format => rcases asks.format with hf | ⟨hf, -⟩ <;> simp [hf]
  flags f := by
    cases f with
    | parallel => exact asks.parallel ▸ Bool.toNat_le _
    | strict => exact asks.strict ▸ Bool.toNat_le _
    | verbose => exact asks.verbose ▸ Bool.toNat_le _
    | help =>
      have hn : .help ∉ flagsOf parts := by
        intro hm
        obtain ⟨p, -, hf⟩ := List.mem_filterMap.mp hm
        cases p with
        | flag name spelling => exact spelling.ne_help (Option.some.inj hf)
        | jar | value => cases hf
      rw [List.count_eq_zero.mpr hn]
      exact Nat.zero_le 1
  accepts name text h := (asks.accepts plain h).1

end JarIndex.CommandLine
