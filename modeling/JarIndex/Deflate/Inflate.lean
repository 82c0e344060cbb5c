import JarIndex.Deflate.Codes

/-!
# Inflating a deflate stream

Blocks follow one another until one that is marked final; bytes after it are not
looked at. What precedes the output counts as zeros, so a distance may reach
before its start.
-/

set_option autoImplicit false

namespace JarIndex.Deflate

/-- The least length or distance of a symbol, and how many bits are added to it. -/
structure Range where
  base : Nat
  bits : Nat

def lengthRanges : Array Range :=
  #[⟨3, 0⟩, ⟨4, 0⟩, ⟨5, 0⟩, ⟨6, 0⟩, ⟨7, 0⟩, ⟨8, 0⟩, ⟨9, 0⟩, ⟨10, 0⟩,
    ⟨11, 1⟩, ⟨13, 1⟩, ⟨15, 1⟩, ⟨17, 1⟩, ⟨19, 2⟩, ⟨23, 2⟩, ⟨27, 2⟩, ⟨31, 2⟩,
    ⟨35, 3⟩, ⟨43, 3⟩, ⟨51, 3⟩, ⟨59, 3⟩, ⟨67, 4⟩, ⟨83, 4⟩, ⟨99, 4⟩, ⟨115, 4⟩,
    ⟨131, 5⟩, ⟨163, 5⟩, ⟨195, 5⟩, ⟨227, 5⟩, ⟨258, 0⟩]

def distanceRanges : Array Range :=
  #[⟨1, 0⟩, ⟨2, 0⟩, ⟨3, 0⟩, ⟨4, 0⟩, ⟨5, 1⟩, ⟨7, 1⟩, ⟨9, 2⟩, ⟨13, 2⟩,
    ⟨17, 3⟩, ⟨25, 3⟩, ⟨33, 4⟩, ⟨49, 4⟩, ⟨65, 5⟩, ⟨97, 5⟩, ⟨129, 6⟩, ⟨193, 6⟩,
    ⟨257, 7⟩, ⟨385, 7⟩, ⟨513, 8⟩, ⟨769, 8⟩, ⟨1025, 9⟩, ⟨1537, 9⟩, ⟨2049, 10⟩, ⟨3073, 10⟩,
    ⟨4097, 11⟩, ⟨6145, 11⟩, ⟨8193, 12⟩, ⟨12289, 12⟩, ⟨16385, 13⟩, ⟨24577, 13⟩]

def Range.read (ranges : Array Range) (symbol : Nat) (s : BitStream) :
    Except Fault (Nat × BitStream) :=
  match ranges[symbol]? with
  | none => .error .corrupt
  | some r =>
    match s.number r.bits with
    | .error e => .error e
    | .ok (n, s) => .ok (r.base + n, s)

theorem Range.size_read {ranges : Array Range} {symbol v : Nat} {s t : BitStream}
    (h : Range.read ranges symbol s = .ok (v, t)) : t.size ≤ s.size := by
  unfold Range.read at h
  split at h
  · cases h
  · split at h
    · cases h
    · rename_i hn
      cases h
      have := BitStream.size_number hn
      omega

def length (symbol : Nat) (s : BitStream) : Except Fault (Nat × BitStream) :=
  Range.read lengthRanges symbol s

theorem size_length {symbol v : Nat} {s t : BitStream} (h : length symbol s = .ok (v, t)) :
    t.size ≤ s.size := Range.size_read h

def distance (c : Codes) (s : BitStream) : Except Fault (Nat × BitStream) :=
  match c.distances.decode s with
  | .error e => .error e
  | .ok (v, s) => Range.read distanceRanges v s

theorem size_distance {c : Codes} {v : Nat} {s t : BitStream} (h : distance c s = .ok (v, t)) :
    t.size ≤ s.size := by
  unfold distance at h
  split at h
  · cases h
  · rename_i hd
    have := Code.size_decode hd
    have := Range.size_read h
    omega

/-- Appends `length` bytes, each the one `distance` places back. -/
def copy (out : Array UInt8) (distance : Nat) : Nat → Array UInt8
  | 0 => out
  | n + 1 =>
    let b := if distance ≤ out.size then out.getD (out.size - distance) 0 else 0
    copy (out.push b) distance n

inductive Symbol where
  | literal (b : UInt8)
  | finish
  | length (range : Nat)
  deriving DecidableEq, Repr

def Symbol.ofNat (v : Nat) : Symbol :=
  if v < 256 then .literal (UInt8.ofNat v)
  else if v = 256 then .finish
  else .length (v - 257)

def symbol (c : Codes) (s : BitStream) : Except Fault (Symbol × BitStream) :=
  match c.literals.decode s with
  | .error e => .error e
  | .ok (v, s) => .ok (Symbol.ofNat v, s)

theorem size_symbol {c : Codes} {v : Symbol} {s t : BitStream} (h : symbol c s = .ok (v, t)) :
    t.size < s.size := by
  unfold symbol at h
  split at h
  · cases h
  · rename_i hd
    cases h
    exact Code.size_decode hd

def symbols (c : Codes) (s : BitStream) (out : Array UInt8) :
    Except Fault (Array UInt8 × BitStream) :=
  match _hs : symbol c s with
  | .error e => .error e
  | .ok (.literal b, t) => symbols c t (out.push b)
  | .ok (.finish, t) => .ok (out, t)
  | .ok (.length range, t) =>
    match _hl : length range t with
    | .error e => .error e
    | .ok (n, u) =>
      match _hd : distance c u with
      | .error e => .error e
      | .ok (d, w) => symbols c w (copy out d n)
termination_by s.size
decreasing_by
  · exact size_symbol _hs
  · have := size_symbol _hs
    have := size_length _hl
    have := size_distance _hd
    omega

theorem size_symbols {c : Codes} {s t : BitStream} {out out' : Array UInt8}
    (h : symbols c s out = .ok (out', t)) : t.size ≤ s.size := by
  fun_induction symbols c s out with
  | case1 => cases h
  | case2 s out b u hs ih =>
    have := size_symbol hs
    have := ih h
    omega
  | case3 s out u hs =>
    cases h
    have := size_symbol hs
    omega
  | case4 => cases h
  | case5 => cases h
  | case6 s out range u hs n x hl d w hd ih =>
    have := size_symbol hs
    have := size_length hl
    have := size_distance hd
    have := ih h
    omega

def stored (s : BitStream) (out : Array UInt8) : Except Fault (Array UInt8 × BitStream) :=
  match s.bytes 4 with
  | .error e => .error e
  | .ok (lengths, s) =>
    let length := Bytes.littleEndian (lengths.take 2)
    if length + Bytes.littleEndian (lengths.drop 2) ≠ 0xFFFF then .error .corrupt
    else match s.bytes length with
      | .error e => .error e
      | .ok (bs, s) => .ok (bs.foldl Array.push out, s)

theorem size_stored {s t : BitStream} {out out' : Array UInt8}
    (h : stored s out = .ok (out', t)) : t.size ≤ s.size := by
  unfold stored at h
  split at h
  · cases h
  · rename_i h4
    have := BitStream.size_bytes h4
    dsimp only at h
    split at h
    · cases h
    · split at h
      · cases h
      · rename_i hb
        cases h
        have := BitStream.size_bytes hb
        omega

def block (kind : Nat) (s : BitStream) (out : Array UInt8) :
    Except Fault (Array UInt8 × BitStream) :=
  match kind with
  | 0 => stored s out
  | 1 => do symbols (← Codes.fixed) s out
  | 2 => do
    let (codes, s) ← Codes.read s
    symbols codes s out
  | _ => .error .corrupt

theorem size_block {kind : Nat} {s t : BitStream} {out out' : Array UInt8}
    (h : block kind s out = .ok (out', t)) : t.size ≤ s.size := by
  unfold block at h
  split at h
  · exact size_stored h
  · obtain ⟨codes, _, h⟩ := ok_of_bind h
    exact size_symbols h
  · obtain ⟨⟨codes, u⟩, hr, h⟩ := ok_of_bind h
    have := Codes.size_read hr
    have := size_symbols h
    omega
  · cases h

def blocks (s : BitStream) (out : Array UInt8) : Except Fault (Array UInt8) :=
  match _hn : s.number 3 with
  | .error e => .error e
  | .ok (header, t) =>
    match _hb : block (header / 2) t out with
    | .error e => .error e
    | .ok (out, u) => if header % 2 = 1 then .ok out else blocks u out
termination_by s.size
decreasing_by
  have := BitStream.size_number _hn
  have := size_block _hb
  omega

def inflate (bs : Bytes) : Except Fault Bytes :=
  (blocks (BitStream.ofBytes bs) #[]).map Array.toList

end JarIndex.Deflate
