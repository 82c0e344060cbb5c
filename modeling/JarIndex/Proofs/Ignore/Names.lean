import JarIndex.Ignore.Rules
import JarIndex.Proofs.Bytes

/-!
# Globs and rules that are plain names

What a pattern accepts is said as a language. A glob without special characters
matches its own text and nothing else; a rule that is such a name matches it at
any depth, unless a slash in it fixes the depth.
-/

set_option autoImplicit false

namespace JarIndex.Ignore

namespace Pattern

def Matches : Pattern → Bytes → Prop
  | .empty, bs => bs = []
  | .one s, bs => ∃ b, bs = [b] ∧ s.contains b = true
  | .many s, bs => ∀ b ∈ bs, s.contains b = true
  | .seq p q, bs => ∃ front rest, bs = front ++ rest ∧ p.Matches front ∧ q.Matches rest
  | .alt p q, bs => p.Matches bs ∨ q.Matches bs

theorem acceptsMany_iff {s : ByteSet} {k : Bytes → Bool} {bs : Bytes} :
    acceptsMany s k bs = true ↔
      ∃ front rest, bs = front ++ rest ∧ (many s).Matches front ∧ k rest = true := by
  induction bs with
  | nil =>
    constructor
    · intro h
      exact ⟨[], [], rfl, List.forall_mem_nil _, h⟩
    · rintro ⟨front, rest, he, _, hk⟩
      obtain ⟨rfl, rfl⟩ := List.append_eq_nil_iff.mp he.symm
      exact hk
  | cons b bs ih =>
    rw [acceptsMany, Bool.or_eq_true, Bool.and_eq_true, ih]
    constructor
    · rintro (h | ⟨hb, front, rest, rfl, hf, hk⟩)
      · exact ⟨[], b :: bs, rfl, List.forall_mem_nil _, h⟩
      · exact ⟨b :: front, rest, rfl, List.forall_mem_cons.mpr ⟨hb, hf⟩, hk⟩
    · rintro ⟨front, rest, he, hf, hk⟩
      cases front with
      | nil =>
        obtain rfl : b :: bs = rest := he
        exact .inl hk
      | cons c front =>
        obtain ⟨rfl, rfl⟩ := List.cons.inj he
        obtain ⟨hb, hf⟩ := List.forall_mem_cons.mp hf
        exact .inr ⟨hb, front, rest, rfl, hf, hk⟩

theorem accepts_iff {p : Pattern} {k : Bytes → Bool} {bs : Bytes} :
    p.accepts k bs = true ↔
      ∃ front rest, bs = front ++ rest ∧ p.Matches front ∧ k rest = true := by
  induction p generalizing k bs with
  | empty => simp [accepts, Matches]
  | one s =>
    cases bs with
    | nil => simp [accepts, Matches]
    | cons b bs =>
      rw [accepts, Bool.and_eq_true]
      constructor
      · rintro ⟨hb, hk⟩
        exact ⟨[b], bs, rfl, ⟨b, rfl, hb⟩, hk⟩
      · rintro ⟨_, rest, he, ⟨c, rfl, hc⟩, hk⟩
        obtain ⟨rfl, rfl⟩ := List.cons.inj he
        exact ⟨hc, hk⟩
  | many s => exact acceptsMany_iff
  | seq p q ihp ihq =>
    rw [accepts, ihp]
    constructor
    · rintro ⟨front, _, rfl, hp, hr⟩
      obtain ⟨middle, rest, rfl, hq, hk⟩ := ihq.mp hr
      exact ⟨front ++ middle, rest, (List.append_assoc ..).symm, ⟨front, middle, rfl, hp, hq⟩, hk⟩
    · rintro ⟨_, rest, rfl, ⟨front, middle, rfl, hp, hq⟩, hk⟩
      exact ⟨front, middle ++ rest, List.append_assoc .., hp, ihq.mpr ⟨middle, rest, rfl, hq, hk⟩⟩
  | alt p q ihp ihq =>
    rw [accepts, Bool.or_eq_true, ihp, ihq]
    constructor
    · rintro (⟨front, rest, he, hm, hk⟩ | ⟨front, rest, he, hm, hk⟩)
      · exact ⟨front, rest, he, .inl hm, hk⟩
      · exact ⟨front, rest, he, .inr hm, hk⟩
    · rintro ⟨front, rest, he, hm | hm, hk⟩
      · exact .inl ⟨front, rest, he, hm, hk⟩
      · exact .inr ⟨front, rest, he, hm, hk⟩

theorem isMatch_iff {p : Pattern} {bs : Bytes} : p.isMatch bs = true ↔ p.Matches bs := by
  rw [isMatch, accepts_iff]
  constructor
  · rintro ⟨front, rest, rfl, hm, hr⟩
    rw [List.isEmpty_iff.mp hr, List.append_nil]
    exact hm
  · intro h
    exact ⟨bs, [], (List.append_nil bs).symm, h, rfl⟩

theorem matches_one_single {b : UInt8} {bs : Bytes} :
    (one (.single b)).Matches bs ↔ bs = [b] := by
  have contains (c : UInt8) : (ByteSet.single b).contains c = true ↔ c = b := by
    simp only [ByteSet.single, ByteSet.contains, List.any_cons, List.any_nil, Bool.or_false,
      Bool.false_bne, Bool.and_eq_true, decide_eq_true_eq]
    exact ⟨fun h => UInt8.le_antisymm h.2 h.1, fun h => h ▸ ⟨UInt8.le_refl _, UInt8.le_refl _⟩⟩
  constructor
  · rintro ⟨c, rfl, hc⟩
    rw [(contains c).mp hc]
  · rintro rfl
    exact ⟨b, rfl, (contains b).mpr rfl⟩

theorem matches_literal {text bs : Bytes} : (literal text).Matches bs ↔ bs = text := by
  induction text generalizing bs with
  | nil => rfl
  | cons b text ih =>
    constructor
    · rintro ⟨front, rest, rfl, hf, hr⟩
      rw [matches_one_single.mp hf, ih.mp hr]
      rfl
    · rintro rfl
      exact ⟨[b], text, rfl, matches_one_single.mpr rfl, ih.mpr rfl⟩

theorem matches_many_all (bs : Bytes) : (many .all).Matches bs := fun _ _ => rfl

end Pattern

namespace Token

open Pattern

theorem matches_anyNamesBefore {p : Pattern} {bs : Bytes} :
    ((Pattern.alt (.alt slash .empty) (.seq anything slash)).seq p).Matches bs ↔
      p.Matches bs ∨ ∃ front rest, bs = front ++ ByteSet.slash :: rest ∧ p.Matches rest := by
  constructor
  · rintro ⟨_, rest, rfl, (hs | rfl) | ⟨front, _, rfl, _, hs⟩, hp⟩
    · rw [matches_one_single.mp hs]
      exact .inr ⟨[], rest, rfl, hp⟩
    · exact .inl hp
    · rw [matches_one_single.mp hs]
      exact .inr ⟨front, rest, by rw [List.append_assoc]; rfl, hp⟩
  · rintro (hp | ⟨front, rest, rfl, hp⟩)
    · exact ⟨[], bs, rfl, .inl (.inr rfl), hp⟩
    · exact ⟨front ++ [ByteSet.slash], rest, by rw [List.append_assoc]; rfl,
        .inr ⟨front, [ByteSet.slash], rfl, matches_many_all front, matches_one_single.mpr rfl⟩, hp⟩

theorem getD_sequence (ts : List Token) :
    (sequence ts).getD .empty = (ts.filterMap pattern).foldr .seq .empty := by
  unfold sequence
  split
  · rename_i h
    rw [h]
    rfl
  · rfl

theorem matches_literals {cs : List Char} {bs : Bytes} :
    (((cs.map literal).filterMap pattern).foldr .seq Pattern.empty).Matches bs ↔
      bs = utf8Bytes (String.ofList cs) := by
  induction cs generalizing bs with
  | nil => rfl
  | cons c cs ih =>
    have text : utf8Bytes (String.ofList (c :: cs)) =
        utf8Bytes (String.singleton c) ++ utf8Bytes (String.ofList cs) := by
      simp [Bytes.utf8Bytes_eq]
    rw [text]
    constructor
    · rintro ⟨front, rest, rfl, hf, hr⟩
      rw [matches_literal.mp hf, ih.mp hr]
    · rintro rfl
      exact ⟨_, _, rfl, matches_literal.mpr rfl, ih.mpr rfl⟩

theorem matches_globOfTokens_literals {cs : List Char} {bs : Bytes} :
    (globOfTokens (cs.map literal)).Matches bs ↔ bs = utf8Bytes (String.ofList cs) := by
  have notAny : cs.map literal ≠ [anyNamesBefore] := by
    cases cs <;> simp
  rw [globOfTokens, if_neg notAny, getD_sequence, matches_literals]

theorem matches_globOfTokens_anyNames {cs : List Char} {bs : Bytes} (hc : cs ≠ []) :
    (globOfTokens (anyNamesBefore :: cs.map literal)).Matches bs ↔
      bs = utf8Bytes (String.ofList cs) ∨
        ∃ front, bs = front ++ ByteSet.slash :: utf8Bytes (String.ofList cs) := by
  have notAny : anyNamesBefore :: cs.map literal ≠ [anyNamesBefore] := by
    simpa using hc
  rw [globOfTokens, if_neg notAny, getD_sequence]
  refine matches_anyNamesBefore.trans (or_congr matches_literals ?_)
  simp only [matches_literals, exists_eq_right]

end Token

def IsPlainChar (c : Char) : Prop := c ∉ ['?', '*', '[', '\x7b', '\x7d', '\\']

namespace GlobState

theorem step_plain {g : GlobState} {c : Char} {cs : List Char} (ho : g.outer = [])
    (hc : IsPlainChar c) : g.step c cs = some (g.push (.literal c) c, cs) := by
  simp only [IsPlainChar, List.mem_cons, List.not_mem_nil, or_false, not_or] at hc
  unfold step
  split
  all_goals simp_all [comma]

end GlobState

theorem readGlob_cons {g h : GlobState} {c : Char} {cs rest : List Char}
    (hs : g.step c cs = some (h, rest)) : readGlob g (c :: cs) = readGlob h rest := by
  rw [readGlob]
  split
  · rename_i hn
    cases hs.symm.trans hn
  · rename_i hn
    cases hs.symm.trans hn
    rfl

theorem readGlob_plain {g : GlobState} {cs : List Char} (ho : g.outer = [])
    (hc : ∀ c ∈ cs, IsPlainChar c) :
    readGlob g cs = some (g.branch.reverse ++ cs.map .literal) := by
  induction cs generalizing g with
  | nil => rw [readGlob, if_pos ho, List.map_nil, List.append_nil]
  | cons c cs ih =>
    obtain ⟨hc, hcs⟩ := List.forall_mem_cons.mp hc
    have hr : readGlob (g.push (.literal c) c) cs = _ := ih ho hcs
    rw [readGlob_cons (GlobState.step_plain ho hc), hr, GlobState.push, List.reverse_cons,
      List.append_assoc]
    rfl

theorem glob?_plain {name : String} (hc : ∀ c ∈ name.toList, IsPlainChar c) :
    ∃ p, glob? name = some p ∧ ∀ bs, p.isMatch bs = true ↔ bs = utf8Bytes name := by
  refine ⟨globOfTokens (name.toList.map .literal), ?_, ?_⟩
  · rw [glob?, readGlob_plain rfl hc]
    rfl
  · intro bs
    rw [Pattern.isMatch_iff, Token.matches_globOfTokens_literals, String.ofList_toList]

theorem readGlob_anyNames {cs : List Char} (hc : ∀ c ∈ cs, IsPlainChar c) :
    readGlob .start ('*' :: '*' :: '/' :: cs) = some (.anyNamesBefore :: cs.map .literal) := by
  have hs : GlobState.start.step '*' ('*' :: '/' :: cs) =
      some (⟨some '/', [.anyNamesBefore], [], [], false⟩, cs) := rfl
  rw [readGlob_cons hs, readGlob_plain rfl hc]
  rfl

namespace Rule

/-- A line that is a name without signs, blanks at its end or special characters. -/
structure IsName (cs : List Char) : Prop where
  nonempty : cs ≠ []
  plain : ∀ c ∈ cs, IsPlainChar c
  head : ∀ c ∈ cs.head?, c ∉ ['#', '!', '/']
  last : ∀ c ∈ cs.getLast?, Text.isBlank c = false ∧ c ≠ '/'

namespace IsName

variable {cs : List Char}

theorem trimmedLine_eq (h : IsName cs) : trimmedLine cs = cs := by
  have kept : Text.trimEnd cs = cs := by
    obtain hn | ⟨front, c, rfl⟩ := List.eq_nil_or_concat cs
    · exact absurd hn h.nonempty
    · have := (h.last c (by simp)).1
      simp [Text.trimEnd, this]
  unfold trimmedLine
  rw [kept, ite_self]

theorem unsigned_eq (h : IsName cs) : unsigned cs = ⟨false, false, cs⟩ := by
  have hh := h.head
  have hp := h.plain
  unfold unsigned
  split <;> simp_all [IsPlainChar]

theorem unslashed_eq (h : IsName cs) : unslashed cs = (false, cs) :=
  if_neg fun hl => (h.last '/' hl).2 rfl

theorem star_notMem (h : IsName cs) : '*' ∉ cs := fun hm => h.plain '*' hm (by decide)

theorem anyDepth_eq (h : IsName cs) : anyDepth cs = '*' :: '*' :: '/' :: cs := by
  have noPrefix : ['*', '*', '/'].isPrefixOf cs = false := by
    rw [Bool.eq_false_iff]
    intro hp
    exact h.star_notMem ((List.isPrefixOf_iff_prefix.mp hp).subset (by decide))
  have notStars : cs ≠ ['*', '*'] := by
    rintro rfl
    exact h.star_notMem (by decide)
  rw [anyDepth, noPrefix, decide_eq_false notStars]
  rfl

end IsName

theorem insideOnly_eq {cs : List Char} (h : cs.getLast? ≠ some '*') : insideOnly cs = cs := by
  refine if_neg fun hs => h ?_
  obtain ⟨front, rfl⟩ := List.isSuffixOf_iff_suffix.mp hs
  simp

theorem IsName.ofLine?_eq {cs : List Char} (h : IsName cs) :
    ofLine? cs = (glob? (String.ofList (if '/' ∈ cs then cs else '*' :: '*' :: '/' :: cs))).map
      fun p => ⟨false, false, p⟩ := by
  have noComment : cs.head? ≠ some '#' := fun hh => h.head '#' hh (by decide)
  have noStar : cs.getLast? ≠ some '*' := fun hl => h.star_notMem (List.mem_of_getLast? hl)
  have behind : ('*' :: '*' :: '/' :: cs).getLast? ≠ some '*' := by
    simpa [List.getLast?_cons_cons, List.getLast?_cons_of_ne_nil h.nonempty] using noStar
  rw [ofLine?, if_neg noComment]
  simp only [h.trimmedLine_eq, if_neg h.nonempty, h.unsigned_eq, h.unslashed_eq, h.anyDepth_eq,
    Bool.false_or, List.contains_iff_mem]
  rw [insideOnly_eq (by split <;> assumption)]

def Names (name : String) (bs : Bytes) : Prop :=
  bs = utf8Bytes name ∨
    '/' ∉ name.toList ∧ ∃ front, bs = front ++ ByteSet.slash :: utf8Bytes name

theorem ofLine?_name {name : String} (h : IsName name.toList) :
    ∃ p, ofLine? name.toList = some ⟨false, false, p⟩ ∧
      ∀ bs, p.isMatch bs = true ↔ Names name bs := by
  rw [h.ofLine?_eq]
  unfold Names
  by_cases hs : '/' ∈ name.toList
  · obtain ⟨p, hg, hm⟩ := glob?_plain h.plain
    refine ⟨p, ?_, fun bs => ?_⟩
    · rw [if_pos hs, String.ofList_toList, hg]
      rfl
    · rw [hm]
      simp [hs]
  · refine ⟨globOfTokens (.anyNamesBefore :: name.toList.map .literal), ?_, fun bs => ?_⟩
    · rw [if_neg hs, glob?, String.toList_ofList, readGlob_anyNames h.plain]
      rfl
    · rw [Pattern.isMatch_iff, Token.matches_globOfTokens_anyNames h.nonempty,
        String.ofList_toList]
      simp [hs]

end Rule

namespace Rules

variable {directory path : String} {rules : List Rule} {isDirectory : Bool}

theorem verdict_concat (rule : Rule) :
    verdict ⟨directory, rules ++ [rule]⟩ path isDirectory =
      if (!rule.onlyDirectories || isDirectory) &&
          rule.glob.isMatch (utf8Bytes (relative directory path)) then
        some (if rule.isException then .kept else .ignored)
      else verdict ⟨directory, rules⟩ path isDirectory := by
  simp only [verdict, List.reverse_append, List.reverse_singleton, List.singleton_append,
    List.find?_cons]
  split
  · rename_i h
    rw [if_pos h]
    rfl
  · rename_i h
    rw [h]
    rfl

theorem verdict_name {name : String} (h : Rule.IsName name.toList) :
    ∃ rule, Rule.ofLine? name.toList = some rule ∧
      (Rule.Names name (utf8Bytes (relative directory path)) →
        verdict ⟨directory, rules ++ [rule]⟩ path isDirectory = some .ignored) ∧
      (¬ Rule.Names name (utf8Bytes (relative directory path)) →
        verdict ⟨directory, rules ++ [rule]⟩ path isDirectory =
          verdict ⟨directory, rules⟩ path isDirectory) := by
  obtain ⟨p, hr, hm⟩ := Rule.ofLine?_name h
  refine ⟨_, hr, fun hn => ?_, fun hn => ?_⟩
  · rw [verdict_concat, (hm _).mpr hn]
    rfl
  · rw [verdict_concat, Bool.eq_false_iff.mpr fun ht => hn ((hm _).mp ht)]
    rfl

end Rules

end JarIndex.Ignore
