import JarIndex.Json
import JarIndex.Proofs.Json.Reader
import JarIndex.Proofs.Text.Utf16
import Mathlib.Data.List.TakeWhile

/-!
# The tokens of what is printed

A printed document splits into its own tokens, and what stands behind it is split as
if it stood alone. The only condition is on a number: the next character must not
be one of a word, as it never is where a number is printed.
-/

set_option autoImplicit false

namespace JarIndex.Json
open Reader

mutual

def tokens : Json → List Token
  | .null => [.scalar .null]
  | .number n => [.scalar (.number n)]
  | .text s => [.text s]
  | .array [] => [.openArray, .closeArray]
  | .array (j :: js) => .openArray :: (j.tokens ++ (itemTokens js ++ [.closeArray]))
  | .object [] => [.openObject, .closeObject]
  | .object ((k, j) :: fs) =>
    .openObject :: .text k :: .colon :: (j.tokens ++ (fieldTokens fs ++ [.closeObject]))

def itemTokens : List Json → List Token
  | [] => []
  | j :: js => .comma :: (j.tokens ++ itemTokens js)

def fieldTokens : List (String × Json) → List Token
  | [] => []
  | (k, j) :: fs => .comma :: .text k :: .colon :: (j.tokens ++ fieldTokens fs)

end

section Numbers
variable (n : Nat)

theorem isDigit_of_mem_toString {c : Char} (hc : c ∈ (toString n).toList) : c.isDigit = true := by
  rw [Nat.toString_eq_ofList_toDigits, String.toList_ofList] at hc
  exact Nat.isDigit_of_mem_toDigits (by decide) (by decide) hc

theorem toString_ne_nil : (toString n).toList ≠ [] := by
  rw [Nat.toString_eq_ofList_toDigits, String.toList_ofList]
  exact Nat.toDigits_ne_nil

theorem not_mem_toString {c : Char} (hc : c.isDigit = false) : c ∉ (toString n).toList :=
  fun h => by simp [isDigit_of_mem_toString n h] at hc

theorem toDigits_of_head_zero (h : (Nat.toDigits 10 n).head? = some '0') :
    Nat.toDigits 10 n = ['0'] := by
  induction n using Nat.strongRecOn with
  | ind n ih =>
    by_cases hn : n < 10
    · rw [Nat.toDigits_of_lt_base hn] at h ⊢
      simpa using h
    · have hq : Nat.toDigits 10 n = Nat.toDigits 10 (n / 10) ++ [(n % 10).digitChar] :=
        Nat.toDigits_of_base_le (by decide) (by omega)
      rw [hq, List.head?_append, Option.or_of_isSome (by simp)] at h
      have hz := ih (n / 10) (by omega) h
      have hv := Nat.ofDigitChars_ten_toDigits (n := n / 10)
      have h0 : Nat.ofDigitChars 10 ['0'] 0 = 0 := by decide
      rw [hz, h0] at hv
      omega

theorem digits?_toString : digits? (toString n).toList = some ((toString n).toList, []) := by
  have hd : ∀ c ∈ (toString n).toList, c.isDigit = true := fun c hc => isDigit_of_mem_toString n hc
  simp only [digits?]
  rw [List.takeWhile_eq_self_iff.mpr hd, List.dropWhile_eq_nil_iff.mpr hd,
    if_neg (toString_ne_nil n)]

theorem whole?_toString : whole? (toString n).toList = some ((toString n).toList, []) := by
  simp only [whole?, digits?_toString, Option.bind_eq_bind, Option.bind_some]
  refine if_neg fun h => h.2 ?_
  rw [Nat.toString_eq_ofList_toDigits, String.toList_ofList] at h ⊢
  exact toDigits_of_head_zero n h.1

theorem natural_toString : natural (toString n).toList = n := by
  rw [Nat.toString_eq_ofList_toDigits, String.toList_ofList]
  exact Nat.ofDigitChars_ten_toDigits

theorem magnitude?_toString : magnitude? (toString n).toList = some (n : ℚ) := by
  have he : exponent? [] = some 0 := rfl
  simp only [magnitude?, whole?_toString, Option.bind_eq_bind, Option.bind_some, fraction?, he,
    List.append_nil, natural_toString]
  simp

theorem number?_toString : number? (toString n).toList = some (n : ℚ) := by
  unfold number?
  split
  · next cs h =>
    have hd : '-'.isDigit = false := rfl
    exact absurd (h ▸ List.mem_cons_self) (not_mem_toString n hd)
  · exact magnitude?_toString n

theorem word?_toString : word? (toString n).toList = some (.number n) := by
  have hne : ∀ s : List Char, ∀ c ∈ s, c.isDigit = false → (toString n).toList ≠ s :=
    fun s c hc hd h => not_mem_toString n hd (h ▸ hc)
  simp only [word?, number?_toString, Option.map_some]
  rw [if_neg (hne _ 'n' (by decide) (by decide)), if_neg (hne _ 't' (by decide) (by decide)),
    if_neg (hne _ 'f' (by decide) (by decide))]

end Numbers

section Lexing

def Delimited (rest : List Char) : Prop := ∀ c, rest.head? = some c → isWordChar c = false

/-- In front of `rest`, `cs` splits into `ts` and leaves `rest` to be split. -/
def Lexes (cs : List Char) (ts : List Token) (rest : List Char) : Prop :=
  lex .between (cs ++ rest) = (lex .between rest).map (ts ++ ·)

variable {cs ds rest : List Char} {ts us : List Token} {c : Char}

theorem delimited_cons (h : isWordChar c = false) : Delimited (c :: rest) := by
  simp [Delimited, h]

theorem lexes_append (h : Lexes cs ts (ds ++ rest)) (h' : Lexes ds us rest) :
    Lexes (cs ++ ds) (ts ++ us) rest := by
  unfold Lexes at *
  rw [List.append_assoc, h, h', Option.map_map]
  simp [Function.comp_def]

theorem lexes_nil : Lexes [] [] rest := by simp [Lexes]

theorem lex_start {m : Mode} (h : start? c = some (ts, m)) :
    lex .between (c :: rest) = (lex m rest).map (ts ++ ·) := by
  rw [lex, h]
  cases hl : lex m rest <;> simp [hl]

theorem lexes_blank (h : start? c = some ([], .between)) (hd : Lexes ds ts rest) :
    Lexes (c :: ds) ts rest := by
  have hc : Lexes [c] [] (ds ++ rest) := lex_start h
  exact lexes_append hc hd

theorem lexes_token {t : Token} (h : start? c = some ([t], .between)) (hd : Lexes ds ts rest) :
    Lexes (c :: ds) (t :: ts) rest := by
  have hc : Lexes [c] [t] (ds ++ rest) := lex_start h
  exact lexes_append hc hd

theorem lexes_newline (depth : Nat) : Lexes (newline depth).toList [] rest := by
  have hs : ∀ k, Lexes (List.replicate k ' ') [] rest := by
    intro k
    induction k with
    | zero => exact lexes_nil
    | succ k ih => exact lexes_blank rfl ih
  rw [newline, String.toList_ofList]
  exact lexes_blank rfl (hs _)

theorem lex_word {w v : List Char} (hv : ∀ c ∈ v, isWordChar c = true) :
    lex (.word w) (v ++ rest) = lex (.word (w ++ v)) rest := by
  induction v generalizing w with
  | nil => simp
  | cons c v ih =>
    obtain ⟨hc, hv⟩ := List.forall_mem_cons.mp hv
    rw [List.cons_append, lex, if_pos hc, ih hv, List.append_assoc, List.singleton_append]

theorem lex_word_end {w : List Char} {v : Value} (hw : word? w = some v) (hr : Delimited rest) :
    lex (.word w) rest = (lex .between rest).map (.scalar v :: ·) := by
  cases rest with
  | nil => simp [lex, hw]
  | cons c cs =>
    have hc : ¬ isWordChar c = true := by simp [hr c rfl]
    simp only [lex, if_neg hc, hw, Option.bind_eq_bind, Option.bind_some]
    cases start? c with
    | none => rfl
    | some p => cases h : lex p.2 cs <;> simp [h]

theorem start?_word (hc : isWordChar c = true) : start? c = some ([], .word [c]) := by
  have hb : isBlank c = false := by
    by_contra h
    simp only [isBlank, Bool.not_eq_false, Bool.or_eq_true, decide_eq_true_eq] at h
    rcases h with ((rfl | rfl) | rfl) | rfl <;> exact absurd hc (by decide)
  have hq : c ≠ '"' := by
    rintro rfl
    exact absurd hc (by decide)
  simp [start?, hb, hq, hc]

theorem lexes_word {w : List Char} {v : Value} (hne : w ≠ []) (hc : ∀ c ∈ w, isWordChar c = true)
    (hw : word? w = some v) (hr : Delimited rest) : Lexes w [.scalar v] rest := by
  cases w with
  | nil => exact absurd rfl hne
  | cons c w =>
    obtain ⟨hc, hcs⟩ := List.forall_mem_cons.mp hc
    rw [Lexes, List.cons_append, lex_start (start?_word hc), lex_word hcs, List.singleton_append,
      lex_word_end hw hr]
    simp [Function.comp_def]

theorem lexes_number (n : Nat) (hr : Delimited rest) :
    Lexes (toString n).toList [.scalar (.number n)] rest := by
  refine lexes_word (toString_ne_nil n) (fun c hc => ?_) (word?_toString n) hr
  simp [isWordChar, Char.isAlphanum, isDigit_of_mem_toString n hc]

end Lexing

section Texts
variable {us : List UInt16} {rest : List Char}

theorem lex_control {n : Nat} (hn : n < 32) :
    lex (.text us) ('\\' :: 'u' :: '0' :: '0' :: hexDigit (n / 16) :: hexDigit (n % 16) :: rest) =
      lex (.text (us ++ [UInt16.ofNat n])) rest := by
  have hd : ∀ n < 32, hexDigit? (hexDigit (n / 16)) = some (n / 16) ∧
      hexDigit? (hexDigit (n % 16)) = some (n % 16) := by decide
  have hz : hexDigit? '0' = some 0 := by decide
  obtain ⟨hh, hl⟩ := hd n hn
  have hu : unitOf [0, 0, n / 16, n % 16] = UInt16.ofNat n := by
    simp only [unitOf, List.foldl_cons, List.foldl_nil]
    congr 1
    omega
  simp [lex, hz, hh, hl, hu]

theorem lex_letter {letter : Char} {u : UInt16} (hl : letter ≠ 'u')
    (h : escaped? letter = some u) :
    lex (.text us) ('\\' :: letter :: rest) = lex (.text (us ++ [u])) rest := by
  simp [lex, hl, h]

theorem lex_escapeChar (c : Char) :
    lex (.text us) (escapeChar c ++ rest) = lex (.text (us ++ Utf16.encodeChar c)) rest := by
  unfold escapeChar
  split_ifs with hq hb h8 h9 hn hf hr hc
  iterate 7
    · subst c
      exact lex_letter (by decide) rfl
  · simp only [List.cons_append, List.nil_append]
    rw [lex_control hc, Utf16.encodeChar, if_pos (by omega)]
  · simp [lex, hq, hb, hc]

theorem lex_escaped (cs : List Char) :
    lex (.text us) (cs.flatMap escapeChar ++ rest) = lex (.text (us ++ Utf16.encode cs)) rest := by
  induction cs generalizing us with
  | nil => simp [Utf16.encode]
  | cons c cs ih =>
    have he : Utf16.encode (c :: cs) = Utf16.encodeChar c ++ Utf16.encode cs := List.flatMap_cons
    rw [List.flatMap_cons, List.append_assoc, lex_escapeChar, ih, he, List.append_assoc]

theorem lexes_quoted (s : String) : Lexes (quoted s).toList [.text s] rest := by
  have hs : start? '"' = some ([], .text []) := rfl
  have hb : lex (.text (Utf16.encode s.toList)) ('"' :: rest) =
      (lex .between rest).map (.text s :: ·) := by
    rw [lex, if_pos rfl, Utf16.decode_encode]
    cases lex .between rest <;> simp
  rw [Lexes, quoted, String.toList_ofList, List.append_assoc, List.cons_append, lex_start hs,
    lex_escaped, List.nil_append, List.singleton_append, hb]
  simp [Function.comp_def]

end Texts

section Documents
variable {cs ds rest : List Char} {ts : List Token}

theorem delimited_newline (depth : Nat) (cs rest : List Char) :
    Delimited ((newline depth).toList ++ cs ++ rest) := by
  rw [newline, String.toList_ofList]
  exact delimited_cons rfl

theorem delimited_items (depth : Nat) (js : List Json) (hr : Delimited rest) :
    Delimited ((renderItems depth js).toList ++ rest) := by
  cases js with
  | nil => simpa [renderItems] using hr
  | cons j js =>
    simp only [renderItems, String.toList_append, List.append_assoc]
    exact delimited_cons rfl

theorem delimited_fields (depth : Nat) (fs : List (String × Json)) (hr : Delimited rest) :
    Delimited ((renderFields depth fs).toList ++ rest) := by
  cases fs with
  | nil => simpa [renderFields] using hr
  | cons f fs =>
    simp only [renderFields, String.toList_append, List.append_assoc]
    exact delimited_cons rfl

theorem lexes_mark {s : String} {c : Char} {t : Token} (hs : s.toList = [c])
    (h : start? c = some ([t], .between)) (hd : Lexes ds ts rest) :
    Lexes (s.toList ++ ds) (t :: ts) rest := hs ▸ lexes_token h hd

theorem lexes_line (depth : Nat) (hd : Lexes ds ts rest) :
    Lexes ((newline depth).toList ++ ds) ts rest := lexes_append (lexes_newline depth) hd

theorem lexes_end {s : String} {c : Char} {t : Token} (depth : Nat) (hs : s.toList = [c])
    (h : start? c = some ([t], .between)) : Lexes ((newline depth).toList ++ s.toList) [t] rest :=
  lexes_line depth (hs ▸ lexes_token h lexes_nil)

theorem lexes_key (k : String) (hd : Lexes ds ts rest) :
    Lexes ((quoted k).toList ++ (": ".toList ++ ds)) (.text k :: .colon :: ts) rest := by
  have hc : Lexes (": ".toList ++ ds) (.colon :: ts) rest := lexes_token rfl (lexes_blank rfl hd)
  exact lexes_append (lexes_quoted k) hc

-- The recursion is that of the printer. What stands behind an item is what is printed next, so a
-- number is always delimited if what stands behind the whole is.
mutual

theorem lexes_render (depth : Nat) {rest : List Char} (hr : Delimited rest) :
    (j : Json) → Lexes (render depth j).toList j.tokens rest
  | .null => by
    rw [render]
    exact lexes_word (by decide) (List.all_eq_true.mp (by decide)) rfl hr
  | .number n => lexes_number n hr
  | .text s => lexes_quoted s
  | .array [] => by
    rw [render]
    exact lexes_token rfl (lexes_token rfl lexes_nil)
  | .object [] => by
    rw [render]
    exact lexes_token rfl (lexes_token rfl lexes_nil)
  | .array (j :: js) => by
    have hd := delimited_newline depth "]".toList rest
    simp only [render, String.toList_append, List.append_assoc]
    refine lexes_mark rfl rfl (lexes_line _ (lexes_append (lexes_render _ ?_ j) ?_))
    · rw [List.append_assoc]
      exact delimited_items depth js hd
    · exact lexes_append (lexes_items depth hd js) (lexes_end depth rfl rfl)
  | .object ((k, j) :: fs) => by
    have hd := delimited_newline depth "\x7d".toList rest
    simp only [render, String.toList_append, List.append_assoc]
    refine lexes_mark rfl rfl (lexes_line _ (lexes_key k (lexes_append (lexes_render _ ?_ j) ?_)))
    · rw [List.append_assoc]
      exact delimited_fields depth fs hd
    · exact lexes_append (lexes_fields depth hd fs) (lexes_end depth rfl rfl)

theorem lexes_items (depth : Nat) {rest : List Char} (hr : Delimited rest) :
    (js : List Json) → Lexes (renderItems depth js).toList (itemTokens js) rest
  | [] => lexes_nil
  | j :: js => by
    simp only [renderItems, String.toList_append, List.append_assoc]
    refine lexes_mark rfl rfl (lexes_line _ ?_)
    exact lexes_append (lexes_render _ (delimited_items depth js hr) j) (lexes_items depth hr js)

theorem lexes_fields (depth : Nat) {rest : List Char} (hr : Delimited rest) :
    (fs : List (String × Json)) → Lexes (renderFields depth fs).toList (fieldTokens fs) rest
  | [] => lexes_nil
  | (k, j) :: fs => by
    simp only [renderFields, String.toList_append, List.append_assoc]
    refine lexes_mark rfl rfl (lexes_line _ (lexes_key k ?_))
    exact lexes_append (lexes_render _ (delimited_fields depth fs hr) j) (lexes_fields depth hr fs)

end

end Documents

end JarIndex.Json
