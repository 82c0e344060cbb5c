import JarIndex.Deflate.Code

/-!
# The codes of a compressed block

A block is written in a code for literals and lengths and a code for distances.
They are fixed, or given in front of the block by run-length coded word lengths,
which are themselves written in a code.
-/

set_option autoImplicit false

namespace JarIndex.Deflate

structure Codes where
  literals : Code
  distances : Code
  deriving DecidableEq, Repr

namespace Codes

def fixedLiteralLengths : List Nat :=
  List.replicate 144 8 ++ List.replicate 112 9 ++ List.replicate 24 7 ++ List.replicate 8 8

def fixedDistanceLengths : List Nat := List.replicate 32 5

def make (literalLengths distanceLengths : List Nat) : Except Fault Codes :=
  match Code.ofLengths? true literalLengths, Code.ofLengths? true distanceLengths with
  | some l, some d => .ok ⟨l, d⟩
  | _, _ => .error .corrupt

def fixed : Except Fault Codes := make fixedLiteralLengths fixedDistanceLengths

/-- The order in which the word lengths of the length code are written. -/
def lengthOrder : List Nat :=
  [16, 17, 18, 0, 8, 7, 9, 6, 10, 5, 11, 4, 12, 3, 13, 2, 14, 1, 15]

def threeBitLengths : Nat → BitStream → Except Fault (List Nat × BitStream)
  | 0, s => .ok ([], s)
  | n + 1, s => do
    let (l, s) ← s.number 3
    let (ls, s) ← threeBitLengths n s
    return (l :: ls, s)

theorem size_threeBitLengths {n : Nat} {ls : List Nat} {s t : BitStream}
    (h : threeBitLengths n s = .ok (ls, t)) : t.size ≤ s.size := by
  induction n generalizing ls s t with
  | zero => cases h; exact Nat.le_refl _
  | succ n ih =>
    obtain ⟨⟨l, u⟩, hl, h⟩ := ok_of_bind h
    obtain ⟨⟨ls, w⟩, hw, h⟩ := ok_of_bind h
    cases h
    have := BitStream.size_number hl
    have := ih hw
    omega

/-- A length, repeated `extra` times beyond the first. -/
structure Run where
  length : Nat
  extra : Nat

def run (code : Code) (previous : Option Nat) (s : BitStream) :
    Except Fault (Run × BitStream) := do
  let (v, s) ← code.decode s
  if v < 16 then return (⟨v, 0⟩, s)
  else if v = 16 then
    match previous with
    | none => .error .corrupt
    | some l =>
      let (n, s) ← s.number 2
      return (⟨l, n + 2⟩, s)
  else if v = 17 then
    let (n, s) ← s.number 3
    return (⟨0, n + 2⟩, s)
  else
    let (n, s) ← s.number 7
    return (⟨0, n + 10⟩, s)

theorem size_run {code : Code} {previous : Option Nat} {r : Run} {s t : BitStream}
    (h : run code previous s = .ok (r, t)) : t.size ≤ s.size := by
  obtain ⟨⟨v, u⟩, hv, h⟩ := ok_of_bind h
  have := Code.size_decode hv
  dsimp only at h
  split at h
  · cases h
    omega
  · split at h
    · split at h
      · cases h
      · obtain ⟨⟨n, w⟩, hn, h⟩ := ok_of_bind h
        cases h
        have := BitStream.size_number hn
        dsimp only
        omega
    · split at h <;>
      · obtain ⟨⟨n, w⟩, hn, h⟩ := ok_of_bind h
        cases h
        have := BitStream.size_number hn
        dsimp only
        omega

/-- Word lengths until `missing` more of them are known; a run may not go beyond. -/
def lengths (code : Code) (missing : Nat) (done : List Nat) (s : BitStream) :
    Except Fault (List Nat × BitStream) :=
  if missing = 0 then .ok (done.reverse, s)
  else match run code done.head? s with
    | .error e => .error e
    | .ok (r, s) =>
      if missing < r.extra + 1 then .error .corrupt
      else lengths code (missing - (r.extra + 1)) (List.replicate (r.extra + 1) r.length ++ done) s
termination_by missing

def lengthCode (ls : List Nat) : Except Fault Code :=
  match Code.ofLengths? false ((List.range 19).map fun v => ((lengthOrder.zip ls).lookup v).getD 0) with
  | some code => .ok code
  | none => .error .corrupt

theorem size_lengths {code : Code} {missing : Nat} {done all : List Nat} {s t : BitStream}
    (h : lengths code missing done s = .ok (all, t)) : t.size ≤ s.size := by
  fun_induction lengths code missing done s with
  | case1 => cases h; exact Nat.le_refl _
  | case2 => cases h
  | case3 => cases h
  | case4 missing done s hm r u hr hn ih =>
    have := size_run hr
    have := ih h
    omega

def read (s : BitStream) : Except Fault (Codes × BitStream) := do
  let (literals, s) ← s.number 5
  let (distances, s) ← s.number 5
  let (given, s) ← s.number 4
  if 29 < literals ∨ 29 < distances then .error .corrupt
  else
    let (ls, s) ← threeBitLengths (given + 4) s
    let code ← lengthCode ls
    let (all, s) ← lengths code (literals + 257 + distances + 1) [] s
    let codes ← make (all.take (literals + 257)) (all.drop (literals + 257))
    return (codes, s)

theorem size_read {c : Codes} {s t : BitStream} (h : read s = .ok (c, t)) :
    t.size ≤ s.size := by
  obtain ⟨⟨l, s₁⟩, h₁, h⟩ := ok_of_bind h
  obtain ⟨⟨d, s₂⟩, h₂, h⟩ := ok_of_bind h
  obtain ⟨⟨g, s₃⟩, h₃, h⟩ := ok_of_bind h
  have := BitStream.size_number h₁
  have := BitStream.size_number h₂
  have := BitStream.size_number h₃
  dsimp only at h
  split at h
  · cases h
  · obtain ⟨⟨ls, s₄⟩, h₄, h⟩ := ok_of_bind h
    obtain ⟨code, _, h⟩ := ok_of_bind h
    obtain ⟨⟨all, s₅⟩, h₅, h⟩ := ok_of_bind h
    obtain ⟨codes, _, h⟩ := ok_of_bind h
    cases h
    have := size_threeBitLengths h₄
    have := size_lengths h₅
    dsimp only at this ⊢
    omega

end Codes

end JarIndex.Deflate
