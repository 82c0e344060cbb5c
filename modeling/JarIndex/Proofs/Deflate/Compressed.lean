import JarIndex.Deflate.Inflate
import Mathlib.Algebra.GroupWithZero.Nat

/-!
# Streams as literals and copies

A compressed block spells literals and copies. A literal puts out its byte; a
copy puts out bytes that stand a fixed distance back, those of the copy itself
among them. A stream inflates to what the items of its blocks put out.
-/

set_option autoImplicit false

namespace JarIndex.Deflate

@[simp] theorem size_copy (out : Array UInt8) (d n : Nat) :
    (copy out d n).size = out.size + n := by
  induction n generalizing out with
  | zero => rfl
  | succ n ih =>
    rw [copy, ih, Array.size_push]
    omega

theorem getElem?_copy_old {out : Array UInt8} {i : Nat} (d n : Nat) (h : i < out.size) :
    (copy out d n)[i]? = out[i]? := by
  induction n generalizing out with
  | zero => rfl
  | succ n ih =>
    rw [copy, ih (by rw [Array.size_push]; omega), Array.getElem?_push_lt h,
      Array.getElem?_eq_getElem h]

/-- The source of a copied byte is looked up in the copied array itself, so a copy longer than
its distance repeats. -/
theorem getElem?_copy_new {out : Array UInt8} {d n i : Nat} (hd : 0 < d) (h : i < n) :
    (copy out d n)[out.size + i]? =
      some (if d ≤ out.size + i then (copy out d n).getD (out.size + i - d) 0 else 0) := by
  induction n generalizing out i with
  | zero => omega
  | succ n ih =>
    cases i with
    | zero =>
      have first : (copy out d (n + 1))[out.size]? =
          some (if d ≤ out.size then out.getD (out.size - d) 0 else 0) := by
        rw [copy, getElem?_copy_old d n (by rw [Array.size_push]; omega), Array.getElem?_push_size]
      simp only [Nat.add_zero]
      rw [first]
      split
      · rw [Array.getD_eq_getD_getElem?, Array.getD_eq_getD_getElem?,
          getElem?_copy_old d (n + 1) (by omega)]
      · rfl
    | succ i =>
      let pushed := out.push (if d ≤ out.size then out.getD (out.size - d) 0 else 0)
      have place : out.size + (i + 1) = pushed.size + i := by
        rw [Array.size_push]
        omega
      rw [place]
      exact ih (Nat.lt_of_succ_lt_succ h)

example : copy #[7, 8] 2 5 = #[7, 8, 7, 8, 7, 8, 7] := rfl

inductive Item where
  | literal (b : UInt8)
  | copy (distance length : Nat)
  deriving DecidableEq, Repr

namespace Item

def append (out : Array UInt8) : Item → Array UInt8
  | literal b => out.push b
  | copy d n => Deflate.copy out d n

def length : Item → Nat
  | literal _ => 1
  | copy _ n => n

/-- The copies that the ranges of lengths and distances can give. -/
def InRange : Item → Prop
  | literal _ => True
  | copy d n => (1 ≤ d ∧ d ≤ 0x8000) ∧ 3 ≤ n ∧ n ≤ 258

theorem size_append (out : Array UInt8) (i : Item) :
    (i.append out).size = out.size + i.length := by
  cases i with
  | literal b => exact Array.size_push b
  | copy d n => exact size_copy out d n

theorem getElem?_append {out : Array UInt8} {k : Nat} (i : Item) (h : k < out.size) :
    (i.append out)[k]? = out[k]? := by
  cases i with
  | literal b => exact (Array.getElem?_push_lt h).trans (Array.getElem?_eq_getElem h).symm
  | copy d n => exact getElem?_copy_old d n h

def appendAll (out : Array UInt8) (items : List Item) : Array UInt8 :=
  items.foldl append out

@[simp] theorem appendAll_cons (out : Array UInt8) (i : Item) (items : List Item) :
    appendAll out (i :: items) = appendAll (i.append out) items := rfl

theorem appendAll_append (out : Array UInt8) (items rest : List Item) :
    appendAll out (items ++ rest) = appendAll (appendAll out items) rest := List.foldl_append

theorem size_appendAll (out : Array UInt8) (items : List Item) :
    (appendAll out items).size = out.size + (items.map length).sum := by
  induction items generalizing out with
  | nil => rfl
  | cons i items ih =>
    rw [appendAll_cons, ih, size_append, List.map_cons, List.sum_cons]
    omega

theorem getElem?_appendAll {out : Array UInt8} {k : Nat} (items : List Item)
    (h : k < out.size) : (appendAll out items)[k]? = out[k]? := by
  induction items generalizing out with
  | nil => rfl
  | cons i items ih =>
    rw [appendAll_cons, ih (by rw [size_append]; omega), getElem?_append i h]

theorem appendAll_literals (out : Array UInt8) (bs : Bytes) :
    appendAll out (bs.map literal) = bs.foldl Array.push out := List.foldl_map

end Item

theorem BitStream.lt_of_number {n v : Nat} {s t : BitStream} (h : number n s = .ok (v, t)) :
    v < 2 ^ n := by
  induction n generalizing v s t with
  | zero => cases h; decide
  | succ n ih =>
    obtain ⟨⟨b, u⟩, _, h⟩ := ok_of_bind h
    obtain ⟨⟨w, x⟩, hw, h⟩ := ok_of_bind h
    cases h
    have := ih hw
    have := Bool.toNat_le b
    rw [Nat.pow_succ]
    omega

namespace Range

def Within (low high : Nat) (r : Range) : Prop := low ≤ r.base ∧ r.base + 2 ^ r.bits ≤ high + 1

instance (low high : Nat) (r : Range) : Decidable (r.Within low high) :=
  inferInstanceAs (Decidable (_ ∧ _))

theorem bounds_of_read {ranges : Array Range} {low high symbol v : Nat} {s t : BitStream}
    (hr : ∀ r ∈ ranges, r.Within low high) (h : Range.read ranges symbol s = .ok (v, t)) :
    low ≤ v ∧ v ≤ high := by
  unfold Range.read at h
  split at h
  · cases h
  · rename_i r hs
    split at h
    · cases h
    · rename_i hn
      cases h
      obtain ⟨hl, hh⟩ := hr r (Array.mem_of_getElem? hs)
      have := BitStream.lt_of_number hn
      omega

end Range

theorem bounds_of_length {symbol v : Nat} {s t : BitStream} (h : length symbol s = .ok (v, t)) :
    3 ≤ v ∧ v ≤ 258 := Range.bounds_of_read (by decide) h

theorem bounds_of_distance {c : Codes} {v : Nat} {s t : BitStream}
    (h : distance c s = .ok (v, t)) : 1 ≤ v ∧ v ≤ 0x8000 := by
  unfold distance at h
  split at h
  · cases h
  · exact Range.bounds_of_read (by decide) h

/-- The items a code spells up to its end symbol, and the stream behind it. -/
inductive Spells (c : Codes) : BitStream → List Item → BitStream → Prop
  | finish {s t : BitStream} : symbol c s = .ok (.finish, t) → Spells c s [] t
  | literal {s t u : BitStream} {b : UInt8} {items : List Item} :
    symbol c s = .ok (.literal b, t) → Spells c t items u → Spells c s (.literal b :: items) u
  | copy {s t u v w : BitStream} {range n d : Nat} {items : List Item} :
    symbol c s = .ok (.length range, t) → length range t = .ok (n, u) →
      distance c u = .ok (d, v) → Spells c v items w → Spells c s (.copy d n :: items) w

namespace Spells

variable {c : Codes} {s t : BitStream} {items : List Item}

theorem inRange (h : Spells c s items t) : ∀ i ∈ items, i.InRange := by
  induction h with
  | finish => intro i hi; cases hi
  | literal _ _ ih => exact List.forall_mem_cons.mpr ⟨trivial, ih⟩
  | copy _ hl hd _ ih =>
    exact List.forall_mem_cons.mpr ⟨⟨bounds_of_distance hd, bounds_of_length hl⟩, ih⟩

theorem symbols_eq (h : Spells c s items t) (out : Array UInt8) :
    symbols c s out = .ok (Item.appendAll out items, t) := by
  induction h generalizing out with
  | finish hs =>
    rw [symbols]
    grind [Item.appendAll]
  | literal hs _ ih =>
    rw [symbols]
    grind [Item.appendAll_cons, Item.append]
  | copy hs hl hd _ ih =>
    rw [symbols]
    grind [Item.appendAll_cons, Item.append]

end Spells

theorem symbols_eq_ok_iff {c : Codes} {s t : BitStream} {out out' : Array UInt8} :
    symbols c s out = .ok (out', t) ↔
      ∃ items, Spells c s items t ∧ Item.appendAll out items = out' := by
  constructor
  · intro h
    fun_induction symbols c s out with
    | case1 => cases h
    | case2 s out b u hs ih =>
      obtain ⟨items, hi, ho⟩ := ih h
      exact ⟨_, .literal hs hi, ho⟩
    | case3 s out u hs =>
      cases h
      exact ⟨[], .finish hs, rfl⟩
    | case4 => cases h
    | case5 => cases h
    | case6 s out range u hs n x hl d w hd ih =>
      obtain ⟨items, hi, ho⟩ := ih h
      exact ⟨_, .copy hs hl hd hi, ho⟩
  · rintro ⟨items, h, rfl⟩
    exact h.symbols_eq out

/-- The items of a block; the bytes of one that is not compressed are literals. -/
inductive IsBlock : Nat → BitStream → List Item → BitStream → Prop
  | stored {s t u : BitStream} {lengths bs : Bytes} :
    s.bytes 4 = .ok (lengths, t) →
      Bytes.littleEndian (lengths.take 2) + Bytes.littleEndian (lengths.drop 2) = 0xFFFF →
        t.bytes (Bytes.littleEndian (lengths.take 2)) = .ok (bs, u) →
          IsBlock 0 s (bs.map .literal) u
  | fixed {c : Codes} {s t : BitStream} {items : List Item} :
    Codes.fixed = .ok c → Spells c s items t → IsBlock 1 s items t
  | given {c : Codes} {s t u : BitStream} {items : List Item} :
    Codes.read s = .ok (c, t) → Spells c t items u → IsBlock 2 s items u

namespace IsBlock

variable {kind : Nat} {s t : BitStream} {items : List Item}

theorem inRange (h : IsBlock kind s items t) : ∀ i ∈ items, i.InRange := by
  cases h with
  | stored =>
    intro i hi
    obtain ⟨b, _, rfl⟩ := List.mem_map.mp hi
    trivial
  | fixed _ hi => exact hi.inRange
  | given _ hi => exact hi.inRange

theorem block_eq (h : IsBlock kind s items t) (out : Array UInt8) :
    block kind s out = .ok (Item.appendAll out items, t) := by
  cases h with
  | stored hl hc hb =>
    rw [block, Deflate.stored]
    simp only [hl, hc, hb, Item.appendAll_literals, ne_eq, not_true, if_false]
  | fixed hc hi =>
    rw [block, hc]
    exact hi.symbols_eq out
  | given hc hi =>
    rw [block, hc]
    exact hi.symbols_eq out

end IsBlock

theorem isBlock_of_stored {s t : BitStream} {out out' : Array UInt8}
    (h : stored s out = .ok (out', t)) :
    ∃ items, IsBlock 0 s items t ∧ Item.appendAll out items = out' := by
  unfold stored at h
  split at h
  · cases h
  · rename_i hl
    dsimp only at h
    split at h
    · cases h
    · rename_i hc
      split at h
      · cases h
      · rename_i hb
        cases h
        exact ⟨_, .stored hl (Decidable.of_not_not hc) hb, Item.appendAll_literals ..⟩

theorem block_eq_ok_iff {kind : Nat} {s t : BitStream} {out out' : Array UInt8} :
    block kind s out = .ok (out', t) ↔
      ∃ items, IsBlock kind s items t ∧ Item.appendAll out items = out' := by
  constructor
  · intro h
    unfold block at h
    split at h
    · exact isBlock_of_stored h
    · obtain ⟨c, hc, h⟩ := ok_of_bind h
      obtain ⟨items, hi, ho⟩ := symbols_eq_ok_iff.mp h
      exact ⟨items, .fixed hc hi, ho⟩
    · obtain ⟨⟨c, u⟩, hc, h⟩ := ok_of_bind h
      obtain ⟨items, hi, ho⟩ := symbols_eq_ok_iff.mp h
      exact ⟨items, .given hc hi, ho⟩
    · cases h
  · rintro ⟨items, h, rfl⟩
    exact h.block_eq out

inductive IsStream : BitStream → List Item → Prop
  | last {header : Nat} {s t u : BitStream} {items : List Item} :
    s.number 3 = .ok (header, t) → header % 2 = 1 → IsBlock (header / 2) t items u →
      IsStream s items
  | more {header : Nat} {s t u : BitStream} {items rest : List Item} :
    s.number 3 = .ok (header, t) → header % 2 ≠ 1 → IsBlock (header / 2) t items u →
      IsStream u rest → IsStream s (items ++ rest)

namespace IsStream

variable {s : BitStream} {items : List Item}

theorem inRange (h : IsStream s items) : ∀ i ∈ items, i.InRange := by
  induction h with
  | last _ _ hb => exact hb.inRange
  | more _ _ hb _ ih =>
    intro i hi
    rcases List.mem_append.mp hi with hi | hi
    · exact hb.inRange i hi
    · exact ih i hi

theorem blocks_eq (h : IsStream s items) (out : Array UInt8) :
    blocks s out = .ok (Item.appendAll out items) := by
  induction h generalizing out with
  | last hn hf hb =>
    have written := hb.block_eq out
    rw [blocks]
    grind
  | more hn hf hb _ ih =>
    have written := hb.block_eq out
    rw [blocks]
    grind [Item.appendAll_append]

end IsStream

theorem blocks_eq_ok_iff {s : BitStream} {out out' : Array UInt8} :
    blocks s out = .ok out' ↔
      ∃ items, IsStream s items ∧ Item.appendAll out items = out' := by
  constructor
  · intro h
    fun_induction blocks s out with
    | case1 => cases h
    | case2 => cases h
    | case3 s out header t hn out' u hb hf =>
      cases h
      obtain ⟨items, hi, ho⟩ := block_eq_ok_iff.mp hb
      exact ⟨items, .last hn hf hi, ho⟩
    | case4 s out header t hn middle u hb hf ih =>
      obtain ⟨items, hi, rfl⟩ := block_eq_ok_iff.mp hb
      obtain ⟨rest, hr, ho⟩ := ih h
      exact ⟨items ++ rest, .more hn hf hi hr, (Item.appendAll_append ..).trans ho⟩
  · rintro ⟨items, h, rfl⟩
    exact h.blocks_eq out

theorem inflate_eq_ok_iff {bs ds : Bytes} :
    inflate bs = .ok ds ↔
      ∃ items, IsStream (.ofBytes bs) items ∧ (Item.appendAll #[] items).toList = ds := by
  constructor
  · intro h
    unfold inflate at h
    cases hb : blocks (.ofBytes bs) #[] with
    | error e =>
      rw [hb] at h
      cases h
    | ok out =>
      rw [hb] at h
      cases h
      obtain ⟨items, hi, ho⟩ := blocks_eq_ok_iff.mp hb
      exact ⟨items, hi, congrArg Array.toList ho⟩
  · rintro ⟨items, h, rfl⟩
    rw [inflate, h.blocks_eq]
    rfl

theorem items_of_inflate {bs ds : Bytes} (h : inflate bs = .ok ds) :
    ∃ items, IsStream (.ofBytes bs) items ∧ (∀ i ∈ items, i.InRange) ∧
      ds.length = (items.map Item.length).sum := by
  obtain ⟨items, hi, rfl⟩ := inflate_eq_ok_iff.mp h
  refine ⟨items, hi, hi.inRange, ?_⟩
  rw [Array.length_toList, Item.size_appendAll, Array.size_empty, Nat.zero_add]

end JarIndex.Deflate
