import JarIndex.Proofs.Json.Printed

/-!
# Reading back what is printed

The machine of the reader takes up the tokens of a document and is then behind its
value, within the frames that were open before. So a printed document is read as
the value that it stands for, and with white space behind it too.
-/

set_option autoImplicit false

namespace JarIndex.Json
open Reader

mutual

def value : Json → Value
  | .null => .null
  | .number n => .number n
  | .text s => .text s
  | .array js => .array (values js)
  | .object fs => .object (fieldValues fs)

def values : List Json → List Value
  | [] => []
  | j :: js => j.value :: values js

def fieldValues : List (String × Json) → List (String × Value)
  | [] => []
  | (k, j) :: fs => (k, j.value) :: fieldValues fs

end

theorem values_eq_map (js : List Json) : values js = js.map value := by
  induction js with
  | nil => rfl
  | cons j js ih => rw [values, ih, List.map_cons]

section Machine

variable {s s' : State} {t : Token} {ts : List Token}

theorem takeUp_cons (h : step? s t = some s') : takeUp s (t :: ts) = takeUp s' ts := by
  simp [takeUp, List.foldlM_cons, h]

/-- The first item of an array is taken up as any value is, since none begins as an array ends. -/
theorem takeUp_firstItem (j : Json) (k : List Frame) :
    takeUp (.firstItem k) (j.tokens ++ ts) = takeUp (.value (.array [] :: k)) (j.tokens ++ ts) := by
  cases j with
  | null | number n | text s => rfl
  | array js => cases js <;> rfl
  | object fs => cases fs <;> rfl

mutual

theorem takeUp_tokens (k : List Frame) (ts : List Token) :
    (j : Json) → takeUp (.value k) (j.tokens ++ ts) = takeUp (.behind j.value k) ts
  | .null | .number _ | .text _ | .array [] | .object [] => rfl
  | .array (j :: js) => by
    simp only [tokens, List.cons_append, List.append_assoc, List.nil_append, value, values]
    rw [takeUp_cons rfl, takeUp_firstItem, takeUp_tokens _ _ j, takeUp_items]
    rfl
  | .object ((key, j) :: fs) => by
    simp only [tokens, List.cons_append, List.append_assoc, List.nil_append, value, fieldValues]
    rw [takeUp_cons rfl, takeUp_cons rfl, takeUp_cons rfl, takeUp_tokens _ _ j, takeUp_fields]
    rfl

theorem takeUp_items (k : List Frame) (v : Value) (vs : List Value) (ts : List Token) :
    (js : List Json) → takeUp (.behind v (.array vs :: k)) (itemTokens js ++ .closeArray :: ts) =
      takeUp (.behind (.array ((v :: vs).reverse ++ values js)) k) ts
  | [] => by
    rw [itemTokens, List.nil_append, takeUp_cons rfl, values, List.append_nil]
  | j :: js => by
    rw [itemTokens, List.cons_append, List.append_assoc, takeUp_cons rfl, takeUp_tokens _ _ j,
      takeUp_items k j.value (v :: vs) ts js, values, List.reverse_cons, List.append_assoc,
      List.singleton_append]

theorem takeUp_fields (k : List Frame) (key : String) (v : Value) (vs : List (String × Value))
    (ts : List Token) : (fs : List (String × Json)) →
      takeUp (.behind v (.object vs key :: k)) (fieldTokens fs ++ .closeObject :: ts) =
        takeUp (.behind (.object (((key, v) :: vs).reverse ++ fieldValues fs)) k) ts
  | [] => by
    rw [fieldTokens, List.nil_append, takeUp_cons rfl, fieldValues, List.append_nil]
  | (key', j) :: fs => by
    rw [fieldTokens, List.cons_append, List.cons_append, List.cons_append, List.append_assoc,
      takeUp_cons rfl, takeUp_cons rfl, takeUp_cons rfl, takeUp_tokens _ _ j,
      takeUp_fields k key' j.value ((key, v) :: vs) ts fs, fieldValues, List.reverse_cons,
      List.append_assoc, List.singleton_append]

end

theorem document?_tokens (j : Json) : document? j.tokens = some j.value := by
  have h := takeUp_tokens [] [] j
  rw [List.append_nil] at h
  rw [document?, h]
  rfl

end Machine

/-- A printed document is read as its value, whatever white space stands behind it. -/
theorem read_render (j : Json) (depth : Nat) {s : String} (hd : Delimited s.toList)
    (hs : lex .between s.toList = some []) : read (render depth j ++ s) = some j.value := by
  have hl : lex .between ((render depth j).toList ++ s.toList) = some j.tokens := by
    rw [lexes_render depth hd j, hs, Option.map_some, List.append_nil]
  rw [read, String.toList_append, hl, Option.bind_some, document?_tokens]

theorem read_pretty (j : Json) : read j.pretty = some j.value := by
  have h := read_render j 0 (s := "") (by simp [Delimited]) rfl
  rwa [String.append_empty] at h

end JarIndex.Json
